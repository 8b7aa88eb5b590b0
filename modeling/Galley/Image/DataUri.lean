import Galley.Text.Search
import Galley.Image.Base64

/-! Images inside their own names: a media type, parameters, a comma and the data. -/

namespace Galley

structure DataUri where
  mime : String
  data : ByteArray

namespace DataUri

def scheme : List Char := "data:".toList

def before (separator : Char) (text : List Char) : List Char := text.takeWhile (· ≠ separator)

def bytesOf (text : List Char) : ByteArray := (String.ofList text).toUTF8

def payload (header text : List Char) : Except AssetError ByteArray :=
  if Text.occurs ";base64".toList header then
    match Base64.decode (bytesOf text).toList with
    | .ok bytes => .ok bytes.toByteArray
    | .error fault => .error (.dataUriBase64 fault)
  else .ok (bytesOf text)

def read (uri : String) : Except AssetError (Option DataUri) := do
  if !scheme.isPrefixOf uri.toList then return none
  let rest := uri.toList.drop scheme.length
  let header := before ',' rest
  match rest.drop header.length with
  | [] => throw .dataUriWithoutPayload
  | _ :: text =>
    let mime := before ';' header
    return some
      { mime := if mime.isEmpty then "application/octet-stream" else String.ofList mime
        data := ← payload header text }

end DataUri

end Galley
