import GuardedArchive.Stream
import GuardedArchive.Zip.Inflate

/-!
# Zip/Delivery — the reads of a deflated content

A deflate stream is taken in pieces.  A read takes the next piece if those before are used up, and
more as long as there is nothing to deliver; it delivers what they let it tell, as much as fits.  A
full read still goes on to where the next octet begins: a stream that goes wrong before that fails
the read, and what it would have delivered is lost.
-/

namespace GuardedArchive.Inflate

namespace Step

/-- The octets that a step writes. -/
def length : Step → Nat
  | coded length _ => length
  | stored length _ => length

/-- How many octets of a step the first `given` octets of the input let it write. -/
def ready (given : Nat) : Step → Nat
  | coded length needed => if needed ≤ given then length else 0
  | stored length start => min length (given - start)

/-- A step without its first `n` octets. -/
def drop (n : Nat) : Step → Step
  | coded length needed => coded (length - n) needed
  | stored length start => stored (length - n) (start + n)

/-- The input that is used up when a step is ready and has to wait: its symbol is, and its stored
octets are not. -/
def used : Step → Nat
  | coded _ needed => needed
  | stored _ start => start

end Step

/-- How many octets the first `given` octets of the input let the steps write, on top of `count` and
at most `room` in all, and the steps that are left. -/
def deliver (given room : Nat) : List Step → (count : Nat) → Nat × List Step
  | [], count => (count, [])
  | s :: rest, count =>
    let n := min (room - count) (s.ready given)
    if n < s.length then (count + n, s.drop n :: rest) else deliver given room rest (count + n)

/-- The input that is used up, of the first `given` octets, when the first of the steps has to wait
for room or for more input. -/
def usedOf (given : Nat) : List Step → Nat
  | [] => given
  | s :: _ => if 0 < s.ready given then s.used else given

/-- How many octets of a stream are taken at a time. -/
def pieceSize : Nat := 8192

/-- The first `given` octets of the input hold the whole stream. -/
def endsWithin (given : Nat) : Except Halt Nat → Bool
  | .ok read => read ≤ given
  | .error _ => false

/-- The first `given` octets of the input show that no stream goes on like this. -/
def failsWithin (given : Nat) : Except Halt Nat → Bool
  | .error (.invalid read) => read ≤ given
  | _ => false

/-- The reads from where `given` octets of the `total` are taken and `used` of them used up, with
the steps and the content still to come, and with `last` behind the end of the stream.  Each of at
most `fuel` turns delivers octets or takes some. -/
def readsFrom (total : Nat) (ending : Except Halt Nat) (last : List Read) :
    (fuel used given : Nat) → List Step → (content : Bytes) → List Read
  | 0, _, _, _, _ => []
  | fuel + 1, used, given, steps, content =>
    let given := if used < given then given else min (given + pieceSize) total
    let (count, left) := deliver given Stream.bufferSize steps 0
    if left.isEmpty && failsWithin given ending then [.failure .corruptDeflate]
    else if 0 < count then
      .data (content.take count) ::
        readsFrom total ending last fuel (usedOf given left) given left (content.drop count)
    else if left.isEmpty && endsWithin given ending then last
    else if given = total then [.failure .incompleteDeflate]
    else readsFrom total ending last fuel given given left content

/-- **The reads of a deflated content**, with what `last` says of the content behind them. -/
def reads (stream : Bytes) (last : Bytes → List Read) : List Read :=
  let all := inflate stream
  readsFrom stream.length all.ending (last all.content) (all.content.length + stream.length + 1)
    0 0 all.steps all.content

end GuardedArchive.Inflate
