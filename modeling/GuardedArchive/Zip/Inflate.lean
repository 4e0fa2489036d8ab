import GuardedArchive.Bytes

/-!
# Zip/Inflate — reading a deflate stream

A stream is a sequence of blocks: stored octets, or symbols in prefix codes that stand for octets
and for copies of what came before.  `inflate` answers all that could be read, how much of the input
each part of it needs, and how reading ended: with the final block, with the input used up before
that, or with something that no stream holds.  Octets behind the final block are not looked at.
-/

namespace GuardedArchive.Inflate

/-- Why reading cannot go on: the input is used up, or no stream goes on like the first `read`
octets of it. -/
inductive Halt
  | ended
  | invalid (read : Nat)
deriving DecidableEq, Repr

/-- The input bit by bit, the low bit of each octet first: `count` bits are left in `hold`, and
`read` octets have been begun. -/
structure Bits where
  rest : Bytes
  hold : Nat := 0
  count : Nat := 0
  read : Nat := 0

namespace Bits

/-- The next bit. -/
def next (bits : Bits) : Except Halt (Nat × Bits) :=
  if bits.count = 0 then
    match bits.rest with
    | [] => .error .ended
    | b :: rest => .ok (b.toNat % 2, ⟨rest, b.toNat / 2, 7, bits.read + 1⟩)
  else .ok (bits.hold % 2, ⟨bits.rest, bits.hold / 2, bits.count - 1, bits.read⟩)

/-- The number in the next `n` bits, the low bit first. -/
def take : Nat → Bits → Except Halt (Nat × Bits)
  | 0, bits => .ok (0, bits)
  | n + 1, bits => do
    let (low, bits) ← bits.next
    let (high, bits) ← take n bits
    return (low + 2 * high, bits)

/-- No stream goes on like what has been read. -/
def invalid {α : Type} (bits : Bits) : Except Halt α := .error (.invalid bits.read)

/-- What is left behind the octet that the next bit stands in and `n` octets more. -/
def skip (n : Nat) (bits : Bits) : Bits := ⟨bits.rest.drop n, 0, 0, bits.read + n⟩

end Bits

/-- A canonical prefix code: how many codes there are of each length from 1 on, and the symbols in
the order of their codes. -/
structure PrefixCode where
  counts : List Nat
  symbols : Array Nat

namespace PrefixCode

/-- The longest code, in bits. -/
def maxLength : Nat := 15

/-- The code in which symbol `i` has the `i`-th length; a length of zero means no code. -/
def ofLengths (lengths : List Nat) : PrefixCode :=
  let longest := lengths.foldl max 0
  let numbered := lengths.zipIdx
  { counts := (List.range longest).map fun i => lengths.count (i + 1)
    symbols := ((List.range longest).flatMap fun i =>
      numbered.filterMap fun p => if p.1 = i + 1 then some p.2 else none).toArray }

/-- The codes that are left free after those of the given counts, or none if there are too many;
`free` are left so far. -/
def freeFrom : Nat → List Nat → Option Nat
  | free, [] => some free
  | free, count :: rest => if 2 * free < count then none else freeFrom (2 * free - count) rest

/-- No free code is left, and none is used twice. -/
def isComplete (code : PrefixCode) : Bool := freeFrom 1 code.counts == some 0

/-- The code has no symbols, or a single one with a code of one bit. -/
def isSparse (code : PrefixCode) : Bool := code.counts == [] || code.counts == [1]

/-- The next symbol: `word` are the bits read so far, and `first` is the first code of the next
length, which is that of the symbol at `index`. -/
def symbolFrom (symbols : Array Nat) :
    List Nat → (word first index : Nat) → Bits → Except Halt (Nat × Bits)
  | [], _, _, _, bits => bits.invalid
  | count :: rest, word, first, index, bits => do
    let (bit, bits) ← bits.next
    let word := word + bit
    if word < first + count then return (symbols.getD (index + (word - first)) 0, bits)
    symbolFrom symbols rest (2 * word) (2 * (first + count)) (index + count) bits

/-- The next symbol.  A code without symbols still takes one bit before it fails. -/
def symbol (code : PrefixCode) (bits : Bits) : Except Halt (Nat × Bits) :=
  symbolFrom code.symbols (if code.counts = [] then [0] else code.counts) 0 0 0 bits

end PrefixCode

/-- The shortest copy that each length symbol stands for, with its extra bits. -/
def lengths : Array (Nat × Nat) :=
  #[(3, 0), (4, 0), (5, 0), (6, 0), (7, 0), (8, 0), (9, 0), (10, 0), (11, 1), (13, 1), (15, 1),
    (17, 1), (19, 2), (23, 2), (27, 2), (31, 2), (35, 3), (43, 3), (51, 3), (59, 3), (67, 4),
    (83, 4), (99, 4), (115, 4), (131, 5), (163, 5), (195, 5), (227, 5), (258, 0)]

/-- The shortest distance that each distance symbol stands for, with its extra bits. -/
def distances : Array (Nat × Nat) :=
  #[(1, 0), (2, 0), (3, 0), (4, 0), (5, 1), (7, 1), (9, 2), (13, 2), (17, 3), (25, 3), (33, 4),
    (49, 4), (65, 5), (97, 5), (129, 6), (193, 6), (257, 7), (385, 7), (513, 8), (769, 8),
    (1025, 9), (1537, 9), (2049, 10), (3073, 10), (4097, 11), (6145, 11), (8193, 12), (12289, 12),
    (16385, 13), (24577, 13)]

/-- The number that a symbol of a table stands for, with its extra bits. -/
def valueOf (table : Array (Nat × Nat)) (symbol : Nat) (bits : Bits) :
    Except Halt (Nat × Bits) :=
  match table[symbol]? with
  | none => bits.invalid
  | some (base, extra) => do
    let (more, bits) ← bits.take extra
    return (base + more, bits)

/-- How a part of the output comes about. -/
inductive Step
  /-- The `length` octets of one symbol, which can be told once `needed` octets of input are
  there. -/
  | coded (length needed : Nat)
  /-- The `length` octets of a stored block, which stand in the input from `start` on. -/
  | stored (length start : Nat)
deriving DecidableEq, Repr

/-- What has been written, and the steps that wrote it. -/
structure Output where
  octets : Array UInt8 := #[]
  steps : Array Step := #[]

/-- The octets written so far, with `length` more, each the one `distance` places before. -/
def copyBack (distance : Nat) : Nat → Array UInt8 → Array UInt8
  | 0, out => out
  | length + 1, out => copyBack distance length (out.push (out.getD (out.size - distance) 0))

namespace Output

/-- Writes the octet of a symbol that ends before `bits`. -/
def literal (octet : UInt8) (bits : Bits) (out : Output) : Output :=
  ⟨out.octets.push octet, out.steps.push (.coded 1 bits.read)⟩

/-- Writes the copy of a symbol that ends before `bits`. -/
def copy (distance length : Nat) (bits : Bits) (out : Output) : Output :=
  ⟨copyBack distance length out.octets, out.steps.push (.coded length bits.read)⟩

/-- Writes octets that stand in the input before `bits`. -/
def stored (content : Bytes) (bits : Bits) (out : Output) : Output :=
  ⟨content.foldl Array.push out.octets, out.steps.push (.stored content.length bits.read)⟩

end Output

/-- What reading has written, and the input that is left or why it cannot go on. -/
abbrev Progress : Type := Output × Except Halt Bits

/-- A distance, of what is already written. -/
def distance (code : PrefixCode) (written : Nat) (bits : Bits) : Except Halt (Nat × Bits) := do
  let (symbol, bits) ← code.symbol bits
  let (d, bits) ← valueOf distances symbol bits
  if written < d then bits.invalid
  return (d, bits)

/-- What a symbol of a block stands for, with what follows it: an octet, a copy of what is already
written, or the end of the block. -/
inductive Meaning
  | literal (octet : UInt8)
  | copy (distance length : Nat)
  | last

/-- Reads one symbol of a block, where `written` octets are already written. -/
def readSymbol (literals back : PrefixCode) (written : Nat) (bits : Bits) :
    Except Halt (Meaning × Bits) := do
  let (symbol, bits) ← literals.symbol bits
  if symbol < 256 then return (.literal (UInt8.ofNat symbol), bits)
  else if symbol = 256 then return (.last, bits)
  else
    let (length, bits) ← valueOf lengths (symbol - 257) bits
    let (d, bits) ← distance back written bits
    return (.copy d length, bits)

/-- Reads the symbols of a block up to its end; at most `fuel` of them. -/
def readSymbols (literals back : PrefixCode) : Nat → Bits → Output → Progress
  | 0, _, out => (out, .error .ended)
  | fuel + 1, bits, out =>
    match readSymbol literals back out.octets.size bits with
    | .error halt => (out, .error halt)
    | .ok (.literal octet, bits) => readSymbols literals back fuel bits (out.literal octet bits)
    | .ok (.copy d length, bits) => readSymbols literals back fuel bits (out.copy d length bits)
    | .ok (.last, bits) => (out, .ok bits)

/-- Reads a stored block: its length, that length inverted, and its octets. -/
def readStored (bits : Bits) (out : Output) : Progress :=
  let header := bits.rest
  let bits := bits.skip 4
  if (header.drop 3).isEmpty then (out, .error .ended)
  else
    let length := Bytes.field header 0 2
    if length + Bytes.field header 2 2 ≠ 0xffff then (out, bits.invalid)
    else
      let content := bits.rest.take length
      let out := out.stored content bits
      if content.length < length then (out, .error .ended) else (out, .ok (bits.skip length))

/-- The prefix codes that a block uses if it does not bring its own. -/
def fixedLiterals : PrefixCode :=
  .ofLengths (List.replicate 144 8 ++ List.replicate 112 9 ++ List.replicate 24 7
    ++ List.replicate 8 8)

def fixedDistances : PrefixCode := .ofLengths (List.replicate 32 5)

/-- The symbols whose code lengths a block gives first, in their order. -/
def lengthOrder : List Nat :=
  [16, 17, 18, 0, 8, 7, 9, 6, 10, 5, 11, 4, 12, 3, 13, 2, 14, 1, 15]

/-- Numbers of three bits each. -/
def readTriples : Nat → Bits → Except Halt (List Nat × Bits)
  | 0, bits => .ok ([], bits)
  | n + 1, bits => do
    let (first, bits) ← bits.take 3
    let (others, bits) ← readTriples n bits
    return (first :: others, bits)

/-- The next symbol of the code for lengths.  Without symbols it takes one bit and means a zero. -/
def lengthSymbol (code : PrefixCode) (bits : Bits) : Except Halt (Nat × Bits) :=
  if code.counts = [] then do
    let (_, bits) ← bits.next
    return (0, bits)
  else code.symbol bits

/-- What a symbol repeats: the last of the lengths that were read, or a zero. -/
def repeatedLength (symbol : Nat) (read : List Nat) (bits : Bits) : Except Halt Nat :=
  if symbol = 16 then
    match read with
    | [] => bits.invalid
    | last :: _ => .ok last
  else .ok 0

/-- The lengths that a symbol stands for: itself, or repetitions. -/
def lengthsOf (symbol : Nat) (read : List Nat) (bits : Bits) : Except Halt (List Nat × Bits) :=
  if symbol < 16 then .ok ([symbol], bits)
  else do
    let (extra, base) := if symbol = 16 then (2, 3) else if symbol = 17 then (3, 3) else (7, 11)
    let (more, bits) ← bits.take extra
    let repeated ← repeatedLength symbol read bits
    return (List.replicate (base + more) repeated, bits)

/-- Reads code lengths until there are `wanted` of them; `read` are those read so far, the last one
first, and every symbol adds at least one. -/
def readLengths (code : PrefixCode) (wanted : Nat) :
    Nat → Bits → List Nat → Except Halt (List Nat × Bits)
  | 0, bits, _ => bits.invalid
  | fuel + 1, bits, read =>
    if wanted ≤ read.length then .ok (read.reverse, bits)
    else do
      let (symbol, bits) ← lengthSymbol code bits
      let (added, bits) ← lengthsOf symbol read bits
      if wanted < read.length + added.length then bits.invalid
      readLengths code wanted fuel bits (added ++ read)

/-- Reads the prefix codes that a block brings. -/
def readCodes (bits : Bits) : Except Halt (PrefixCode × PrefixCode × Bits) := do
  let (literals, bits) ← bits.take 5
  let (distances, bits) ← bits.take 5
  let (lengths, bits) ← bits.take 4
  let literals := literals + 257
  let distances := distances + 1
  if 286 < literals ∨ 30 < distances then bits.invalid
  let (triples, bits) ← readTriples (lengths + 4) bits
  let given := lengthOrder.zip triples
  let code := PrefixCode.ofLengths ((List.range 19).map fun s => (given.lookup s).getD 0)
  if !(code.isComplete || code.counts == []) then bits.invalid
  let wanted := literals + distances
  let (all, bits) ← readLengths code wanted (wanted + 1) bits []
  let literalCode := PrefixCode.ofLengths (all.take literals)
  let distanceCode := PrefixCode.ofLengths (all.drop literals)
  if all.getD 256 0 = 0 || !(literalCode.isComplete || literalCode.isSparse)
      || !(distanceCode.isComplete || distanceCode.isSparse) then bits.invalid
  return (literalCode, distanceCode, bits)

/-- Reads one block behind its header; at most `limit` symbols. -/
def readBlock (limit kind : Nat) (bits : Bits) (out : Output) : Progress :=
  if kind = 0 then readStored bits out
  else if kind = 1 then readSymbols fixedLiterals fixedDistances limit bits out
  else if kind = 2 then
    match readCodes bits with
    | .error halt => (out, .error halt)
    | .ok (literals, back, bits) => readSymbols literals back limit bits out
  else (out, bits.invalid)

/-- Reads the header of a block: if it is the final one, and its kind. -/
def readHeader (bits : Bits) : Except Halt (Nat × Nat × Bits) := do
  let (final, bits) ← bits.take 1
  let (kind, bits) ← bits.take 2
  return (final, kind, bits)

/-- Reads blocks up to the final one, with at most `limit` symbols each; at most `fuel` blocks.  The
answer is the octets of input that all of them take, or why there is no end. -/
def readBlocks (limit : Nat) : Nat → Bits → Output → Output × Except Halt Nat
  | 0, _, out => (out, .error .ended)
  | fuel + 1, bits, out =>
    match readHeader bits with
    | .error halt => (out, .error halt)
    | .ok (final, kind, bits) =>
      match readBlock limit kind bits out with
      | (out, .error halt) => (out, .error halt)
      | (out, .ok bits) =>
        if final = 1 then (out, .ok bits.read) else readBlocks limit fuel bits out

/-- What a stream holds: its content with the steps that write it, and the octets that the stream
takes, or why it has no end. -/
structure Inflated where
  content : Bytes
  steps : List Step
  ending : Except Halt Nat

/-- **Reads a deflate stream.**  Every block and every symbol takes a bit at least. -/
def inflate (stream : Bytes) : Inflated :=
  let limit := 8 * stream.length + 1
  let (out, ending) := readBlocks limit limit ⟨stream, 0, 0, 0⟩ {}
  ⟨out.octets.toList, out.steps.toList, ending⟩

end GuardedArchive.Inflate
