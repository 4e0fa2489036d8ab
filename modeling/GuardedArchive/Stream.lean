import GuardedArchive.Error.Basic

/-!
# Stream — copying what a reader delivers, chunk by chunk

A reader is the list of what its reads will do: deliver octets, be interrupted, or fail; a reader
that has run out delivers nothing.  `copyChunks` hands each chunk with the running total to `accept`
before it goes on, tries again after an interruption, and stops at the first empty read, failure or
refusal.  What was not read is part of the answer.
-/

namespace GuardedArchive

/-- What one read does; an empty delivery is the end of the content. -/
inductive Read
  | data (octets : Bytes)
  | interrupted
  | failure (error : IoError)
deriving DecidableEq, Repr

namespace Stream

/-- How much one read can deliver, in octets. -/
def bufferSize : Nat := 65536

/-- Octets in pieces of `size`, the last one shorter; at most `count` pieces. -/
def chunksUpTo (size : Nat) : Nat → Bytes → List Bytes
  | 0, _ => []
  | count + 1, bs =>
    if bs.isEmpty then [] else bs.take size :: chunksUpTo size count (bs.drop size)

/-- Octets in pieces as large as one read can deliver. -/
def chunks (bs : Bytes) : List Bytes := chunksUpTo bufferSize bs.length bs

/-- The reads of a reader that has these octets ready. -/
def readsOf (bs : Bytes) : List Read := (chunks bs).map .data

/-- How a copy ended: the octets copied or the error, the state of the receiver, and the reads that
were never made. -/
structure Copied (σ : Type) where
  result : Except ArchiveError Nat
  state : σ
  unread : List Read

variable {σ : Type}

/-- **Copies until the reader has no more**, giving each chunk and the total with it to `accept`;
`total` counts the octets of the chunks before. -/
def copyFrom (accept : Bytes → Nat → σ → Except ArchiveError Unit × σ) :
    List Read → Nat → σ → Copied σ
  | [], total, s => ⟨.ok total, s, []⟩
  | .interrupted :: rest, total, s => copyFrom accept rest total s
  | .failure e :: rest, _, s => ⟨.error (.io e), s, rest⟩
  | .data chunk :: rest, total, s =>
    if chunk.isEmpty then ⟨.ok total, s, rest⟩
    else
      let total' := total + chunk.length
      if Bytes.maxCount < total' then ⟨.error (.io .byteCountOverflow), s, rest⟩
      else match accept chunk total' s with
      | (.ok (), s') => copyFrom accept rest total' s'
      | (.error e, s') => ⟨.error e, s', rest⟩

/-- Copies all that a reader delivers. -/
def copyChunks (accept : Bytes → Nat → σ → Except ArchiveError Unit × σ) (reads : List Read)
    (s : σ) : Copied σ :=
  copyFrom accept reads 0 s

end Stream

end GuardedArchive
