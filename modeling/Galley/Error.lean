import Galley.Color
import Galley.Markup.Fault

/-! Everything that can go wrong, each as its cause, and the message for it. -/

namespace Galley

inductive Resource where
  | font
  | image
  | condition
  deriving DecidableEq

namespace Resource

def name : Resource → String
  | font => "font"
  | image => "image"
  | condition => "condition"

end Resource

inductive FontFault where
  | unknownMagic
  | malformed
  | faceIndexOutOfBounds
  | badTable (tag : String)
  deriving DecidableEq

namespace FontFault

def message : FontFault → String
  | unknownMagic => "unknown magic"
  | malformed => "malformed font"
  | faceIndexOutOfBounds => "face index is out of bounds"
  | badTable tag => s!"the {tag} table is missing or malformed"

end FontFault

inductive Base64Fault where
  | symbol (byte offset : Nat)
  | lastSymbol (byte offset : Nat)
  | length (symbols : Nat)
  | padding
  deriving DecidableEq

namespace Base64Fault

def message : Base64Fault → String
  | symbol byte offset => s!"Invalid symbol {byte}, offset {offset}."
  | lastSymbol byte offset => s!"Invalid last symbol {byte}, offset {offset}."
  | length symbols => s!"Invalid input length: {symbols}"
  | padding => "Invalid padding"

end Base64Fault

inductive AssetError where
  | fontData (name : String) (fault : FontFault)
  | zeroUnitsPerEm (name : String)
  | unknownBaseFont (name : String)
  | unreadableFont (path reason : String)
  | imageData (name : String)
  | unregisteredImage (name : String)
  | unreadableImage (path reason : String)
  | dataUriWithoutPayload
  | dataUriBase64 (fault : Base64Fault)
  deriving DecidableEq

namespace AssetError

def message : AssetError → String
  | fontData name fault => s!"invalid font data for {name}: {fault.message}"
  | zeroUnitsPerEm name => s!"font {name} reports zero units per em"
  | unknownBaseFont name => s!"unknown base font {name}"
  | unreadableFont path reason => s!"cannot read font {path}: {reason}"
  | imageData name => s!"cannot decode image {name}"
  | unregisteredImage name => s!"image `{name}` is not registered"
  | unreadableImage path reason => s!"cannot read image {path}: {reason}"
  | dataUriWithoutPayload => "data URI has no payload"
  | dataUriBase64 fault => s!"invalid base64 in data URI: {fault.message}"

end AssetError

inductive ResolveError where
  | unregisteredFont (name : String)
  | unknownCondition (name : String)
  | unconfigured (resource : Resource)
  | asset (error : AssetError)
  | custom (text : String)
  deriving DecidableEq

inductive FormatPart where
  | font
  | color
  deriving DecidableEq

def FormatPart.name : FormatPart → String
  | font => "font"
  | color => "color"

/-- Why there is no result. All but the last are reported to whoever asked; after an overflow the question itself
does not return. -/
inductive Failure where
  | missingFormat (part : FormatPart)
  | color (error : ColorError)
  | resolver (resource : Resource) (name : String) (source : ResolveError)
  | markup (fault : Markup.Fault)
  | missingAttribute (element name : String)
  | unsupportedElement (name : String)
  | fontsNotConfigured
  | surfaceDimensions (width height : UInt32)
  | asset (error : AssetError)
  | overflow
  deriving DecidableEq

namespace Failure

def message : Failure → String
  | missingFormat part =>
    s!"no {part.name} available: text scope sets none and has no enclosing scope to inherit from"
  | color error => error.message
  | resolver resource name _ => s!"{resource.name} resolver failed for `{name}`"
  | markup fault => s!"markup syntax error: {fault.message}"
  | missingAttribute element name => s!"<{element}> is missing required attribute `{name}`"
  | unsupportedElement name => s!"unsupported element <{name}>"
  | fontsNotConfigured => "invalid configuration: a font resolver is required"
  | surfaceDimensions width height =>
    s!"invalid configuration: invalid surface dimensions {width}x{height}"
  | asset error => s!"asset error: {error.message}"
  | overflow => "attempt to add with overflow"

end Failure

namespace ResolveError

def message : ResolveError → String
  | unregisteredFont name => s!"font `{name}` is not registered"
  | unknownCondition name => s!"unknown condition `{name}`"
  | unconfigured resource => s!"no {resource.name} resolver configured"
  | asset error => (Failure.asset error).message
  | custom text => text

end ResolveError

end Galley
