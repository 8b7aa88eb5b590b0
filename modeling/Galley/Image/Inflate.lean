/-! Decompression of deflate streams in their zlib wrapping. Bits are read from the low end of each byte. -/

namespace Galley.Inflate

structure State where
  pos : Nat
  out : ByteArray

def bit? (b : ByteArray) (pos : Nat) : Option Nat :=
  b[pos / 8]?.map fun x => (x.toNat >>> (pos % 8)) % 2

def bits? (b : ByteArray) (pos : Nat) : Nat → Option Nat
  | 0 => some 0
  | n + 1 => do return (← bit? b pos) + 2 * (← bits? b (pos + 1) n)

structure Code where
  counts : List Nat
  symbols : Array Nat

def maxLength : Nat := 15

namespace Code

def ofLengths (lengths : List Nat) : Code where
  counts := (List.range maxLength).map fun k => lengths.count (k + 1)
  symbols := ((List.range maxLength).flatMap fun k =>
    (lengths.zipIdx.filter fun e => e.1 == k + 1).map Prod.snd).toArray

/-- The words of full length that stay unused, or `none` if there are more words than can be. -/
def unused? (c : Code) : Option Nat :=
  c.counts.foldlM (fun left n => if 2 * left < n then none else some (2 * left - n)) 1

def isComplete (c : Code) : Bool := c.unused? == some 0

/-- Walks down the code: `first` is the first word of the length reached and `index` its symbol. -/
def walk (c : Code) (b : ByteArray) : List Nat → Nat → Nat → Nat → Nat → Option (Nat × Nat)
  | [], _, _, _, _ => none
  | n :: counts, pos, word, first, index => do
    let word := 2 * word + (← bit? b pos)
    let first := 2 * first
    if word < first + n then return (← c.symbols[index + (word - first)]?, pos + 1)
    walk c b counts (pos + 1) word (first + n) (index + n)

def symbol? (c : Code) (b : ByteArray) (pos : Nat) : Option (Nat × Nat) := c.walk b c.counts pos 0 0 0

end Code

def lengthBases : Array Nat :=
  #[3, 4, 5, 6, 7, 8, 9, 10, 11, 13, 15, 17, 19, 23, 27, 31, 35, 43, 51, 59, 67, 83, 99, 115, 131, 163,
    195, 227, 258]

def lengthBits : Array Nat :=
  #[0, 0, 0, 0, 0, 0, 0, 0, 1, 1, 1, 1, 2, 2, 2, 2, 3, 3, 3, 3, 4, 4, 4, 4, 5, 5, 5, 5, 0]

def distanceBases : Array Nat :=
  #[1, 2, 3, 4, 5, 7, 9, 13, 17, 25, 33, 49, 65, 97, 129, 193, 257, 385, 513, 769, 1025, 1537, 2049,
    3073, 4097, 6145, 8193, 12289, 16385, 24577]

def distanceBits : Array Nat :=
  #[0, 0, 0, 0, 1, 1, 2, 2, 3, 3, 4, 4, 5, 5, 6, 6, 7, 7, 8, 8, 9, 9, 10, 10, 11, 11, 12, 12, 13, 13]

def copy (out : ByteArray) (distance : Nat) : Nat → ByteArray
  | 0 => out
  | length + 1 => copy (out.push (out[out.size - distance]?.getD 0)) distance length

def blockData (b : ByteArray) (literals distances : Code) : Nat → State → Option State
  | 0, _ => none
  | fuel + 1, s => do
    let (symbol, pos) ← literals.symbol? b s.pos
    if symbol < 256 then
      blockData b literals distances fuel ⟨pos, s.out.push (UInt8.ofNat symbol)⟩
    else if symbol = 256 then return { s with pos }
    else
      let extra ← lengthBits[symbol - 257]?
      let length := (← lengthBases[symbol - 257]?) + (← bits? b pos extra)
      let (symbol, pos) ← distances.symbol? b (pos + extra)
      let extra ← distanceBits[symbol]?
      let distance := (← distanceBases[symbol]?) + (← bits? b pos extra)
      if s.out.size < distance then none else
      blockData b literals distances fuel ⟨pos + extra, copy s.out distance length⟩

def fixedLiterals : Code :=
  .ofLengths (List.replicate 144 8 ++ List.replicate 112 9 ++ List.replicate 24 7 ++ List.replicate 8 8)

def fixedDistances : Code := .ofLengths (List.replicate 30 5)

def lengthOrder : List Nat := [16, 17, 18, 0, 8, 7, 9, 6, 10, 5, 11, 4, 12, 3, 13, 2, 14, 1, 15]

def codeLengths? (b : ByteArray) (c : Code) (wanted : Nat) :
    Nat → Nat → List Nat → Option (List Nat × Nat)
  | 0, _, _ => none
  | fuel + 1, pos, lengths => do
    if lengths.length = wanted then return (lengths, pos)
    if wanted < lengths.length then none else
    let (symbol, pos) ← c.symbol? b pos
    let again (value bits base : Nat) : Option (List Nat × Nat) := do
      let n := base + (← bits? b pos bits)
      codeLengths? b c wanted fuel (pos + bits) (List.replicate n value ++ lengths)
    match symbol with
    | 16 => again (← lengths.head?) 2 3
    | 17 => again 0 3 3
    | 18 => again 0 7 11
    | _ => codeLengths? b c wanted fuel pos (symbol :: lengths)

/-- Distances may have no code at all, or a single word of one bit. -/
def distancesAllowed (lengths : List Nat) (c : Code) : Bool :=
  c.isComplete || lengths.all (· == 0) || lengths.filter (· != 0) == [1]

def ownCodes? (b : ByteArray) (pos : Nat) : Option (Code × Code × Nat) := do
  let literals := (← bits? b pos 5) + 257
  let distances := (← bits? b (pos + 5) 5) + 1
  let stored := (← bits? b (pos + 10) 4) + 4
  if 286 < literals ∨ 30 < distances then none else
  let given ← (List.range stored).mapM fun k => bits? b (pos + 14 + 3 * k) 3
  let named := lengthOrder.zip given
  let code := Code.ofLengths ((List.range 19).map fun k => (named.lookup k).getD 0)
  if !code.isComplete then none else
  let wanted := literals + distances
  let (lengths, pos) ← codeLengths? b code wanted (wanted + 1) (pos + 14 + 3 * stored) []
  let lengths := lengths.reverse
  let literalCode := Code.ofLengths (lengths.take literals)
  let distanceLengths := lengths.drop literals
  let distanceCode := Code.ofLengths distanceLengths
  if lengths[256]? = some 0 ∨ !literalCode.isComplete ∨ !distancesAllowed distanceLengths distanceCode then none
  else return (literalCode, distanceCode, pos)

def storedBlock? (b : ByteArray) (s : State) : Option State := do
  let start := (s.pos + 7) / 8
  let length ← bits? b (8 * start) 16
  let check ← bits? b (8 * start + 16) 16
  if length + check ≠ 0xFFFF ∨ b.size < start + 4 + length then none else
  return ⟨8 * (start + 4 + length), s.out ++ b.extract (start + 4) (start + 4 + length)⟩

def blocks? (b : ByteArray) : Nat → State → Option State
  | 0, _ => none
  | fuel + 1, s => do
    let isLast ← bit? b s.pos
    let kind ← bits? b (s.pos + 1) 2
    let s := { s with pos := s.pos + 3 }
    let symbols := 8 * b.size + 1
    let s ← match kind with
      | 0 => storedBlock? b s
      | 1 => blockData b fixedLiterals fixedDistances symbols s
      | 2 => do
        let (literals, distances, pos) ← ownCodes? b s.pos
        blockData b literals distances symbols { s with pos }
      | _ => none
    if isLast = 1 then return s else blocks? b fuel s

/-- The contents of a zlib stream. Its header must be sound and its checksum present. -/
def decompress? (b : ByteArray) : Option ByteArray := do
  let method := (← b[0]?).toNat
  let flags := (← b[1]?).toNat
  if method % 16 ≠ 8 ∨ 0x70 < method / 16 * 16 ∨ flags / 32 % 2 = 1 ∨ (256 * method + flags) % 31 ≠ 0 then none
  else
    let s ← blocks? b (8 * b.size + 1) ⟨16, .empty⟩
    if b.size < (s.pos + 7) / 8 + 4 then none else return s.out

end Galley.Inflate
