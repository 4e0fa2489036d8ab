import GuardedArchive.Proofs.Effect
import GuardedArchive.Proofs.Zip.Encoding
import GuardedArchive.Zip.Delivery
import Mathlib.Algebra.GroupWithZero.Nat

/-!
# Proofs/Zip/Inflating — what reading a deflate stream writes

    input   …bits that were read…|…bits that are left…
    output  …octets, at most 258 for each bit…          told by steps that the input lets write

Whatever is read of a stream goes on in it (`Advances`), and a symbol takes at least one bit and
writes at most 258 octets (`readSymbol_eq_ok`).  So reading keeps account of what it has written
(`Reading`), block by block up to the end (`reading_readBlocks`), and a stream holds at most 2064
times as much as its length (`Holds.length_le`).
-/

namespace GuardedArchive.Inflate


variable {bits bits' bits'' : Bits} {m n : Nat}

/-! ## Bits -/

/-- How many bits are left. -/
def Bits.left (bits : Bits) : Nat := 8 * bits.rest.length + bits.count

/-- Reading went on in the same input, by `n` bits at least. -/
structure Advances (n : Nat) (bits bits' : Bits) : Prop where
  total : bits'.read + bits'.rest.length = bits.read + bits.rest.length
  left : bits'.left + n ≤ bits.left

theorem Advances.refl (bits : Bits) : Advances 0 bits bits := ⟨rfl, Nat.le_refl _⟩

theorem Advances.trans (h : Advances m bits bits') (h' : Advances n bits' bits'') :
    Advances (m + n) bits bits'' where
  total := h'.total.trans h.total
  left := by
    have := h.left
    have := h'.left
    omega

theorem Advances.mono (h : Advances n bits bits') (hle : m ≤ n) : Advances m bits bits' :=
  ⟨h.total, Nat.le_trans (Nat.add_le_add_left hle _) h.left⟩

/-- What is read may be anything behind the first `m` bits. -/
theorem Advances.then (h : Advances m bits bits') (h' : Advances n bits' bits'') :
    Advances m bits bits'' :=
  (h.trans h').mono (Nat.le_add_right m n)

/-- Reading goes on only where the test that fails it does not hold. -/
theorem of_guard {α β : Type} {c : Prop} [Decidable c] {f : α → Except Halt β}
    {x : Except Halt β} {b : β} (h : (if c then bits.invalid >>= f else x) = .ok b) :
    x = .ok b := by
  split at h
  · cases h
  · exact h

theorem advances_next {bit : Nat} (h : bits.next = .ok (bit, bits')) : Advances 1 bits bits' := by
  rw [Bits.next] at h
  split at h
  next hcount =>
    split at h
    · cases h
    next b rest hrest =>
      obtain ⟨-, rfl⟩ := Prod.mk.inj (Except.ok.inj h)
      constructor <;> simp only [Bits.left, hrest, List.length_cons] <;> omega
  next hcount =>
    obtain ⟨-, rfl⟩ := Prod.mk.inj (Except.ok.inj h)
    refine ⟨rfl, ?_⟩
    simp only [Bits.left]
    omega

theorem advances_skip (h : n ≤ bits.rest.length) : Advances (8 * n) bits (bits.skip n) := by
  constructor <;> simp only [Bits.left, Bits.skip, List.length_drop] <;> omega

theorem next_lt {bit : Nat} (h : bits.next = .ok (bit, bits')) : bit < 2 := by
  rw [Bits.next] at h
  split at h
  · split at h
    · cases h
    · obtain ⟨rfl, -⟩ := Prod.mk.inj (Except.ok.inj h)
      exact Nat.mod_lt _ (by decide)
  · obtain ⟨rfl, -⟩ := Prod.mk.inj (Except.ok.inj h)
    exact Nat.mod_lt _ (by decide)

theorem advances_take : ∀ {n value : Nat} {bits bits' : Bits},
    bits.take n = .ok (value, bits') → Advances 0 bits bits'
  | 0, _, bits, _, h => by
    obtain ⟨-, rfl⟩ := Prod.mk.inj (Except.ok.inj h)
    exact .refl _
  | n + 1, _, bits, _, h => by
    rw [Bits.take] at h
    obtain ⟨⟨_, _⟩, hnext, h⟩ := bind_eq_ok_iff.mp h
    obtain ⟨⟨_, _⟩, htake, h⟩ := bind_eq_ok_iff.mp h
    obtain ⟨-, rfl⟩ := Prod.mk.inj (Except.ok.inj h)
    exact ((advances_next hnext).mono (Nat.zero_le _)).then (advances_take htake)

theorem take_lt : ∀ {n value : Nat} {bits bits' : Bits}, bits.take n = .ok (value, bits') →
    value < 2 ^ n
  | 0, _, bits, _, h => by
    obtain ⟨rfl, -⟩ := Prod.mk.inj (Except.ok.inj h)
    exact Nat.one_pos
  | n + 1, _, bits, _, h => by
    rw [Bits.take] at h
    obtain ⟨⟨_, _⟩, hnext, h⟩ := bind_eq_ok_iff.mp h
    obtain ⟨⟨_, _⟩, htake, h⟩ := bind_eq_ok_iff.mp h
    obtain ⟨rfl, -⟩ := Prod.mk.inj (Except.ok.inj h)
    have hlow := next_lt hnext
    have hhigh := take_lt htake
    rw [Nat.pow_succ]
    omega

/-! ## Symbols -/

theorem advances_symbolFrom {symbols : Array Nat} : ∀ {counts : List Nat}
    {word first index symbol : Nat} {bits bits' : Bits},
    PrefixCode.symbolFrom symbols counts word first index bits = .ok (symbol, bits') →
      Advances 1 bits bits'
  | [], _, _, _, _, _, _, h => by cases h
  | count :: rest, word, first, index, symbol, bits, _, h => by
    rw [PrefixCode.symbolFrom] at h
    obtain ⟨⟨bit, bits₁⟩, hnext, h⟩ := bind_eq_ok_iff.mp h
    dsimp only at h
    split at h
    · obtain ⟨-, rfl⟩ := Prod.mk.inj (Except.ok.inj h)
      exact advances_next hnext
    · exact (advances_next hnext).then (advances_symbolFrom h)

/-- **A symbol takes a bit at least.** -/
theorem advances_symbol {code : PrefixCode} {symbol : Nat}
    (h : code.symbol bits = .ok (symbol, bits')) : Advances 1 bits bits' :=
  advances_symbolFrom h

theorem advances_valueOf {table : Array (Nat × Nat)} {symbol value : Nat}
    (h : valueOf table symbol bits = .ok (value, bits')) : Advances 0 bits bits' := by
  rw [valueOf] at h
  split at h
  · cases h
  · obtain ⟨⟨_, _⟩, htake, h⟩ := bind_eq_ok_iff.mp h
    obtain ⟨-, rfl⟩ := Prod.mk.inj (Except.ok.inj h)
    exact advances_take htake

/-- **A symbol stands for a copy of 258 octets at most.** -/
theorem valueOf_lengths_le {symbol value : Nat}
    (h : valueOf lengths symbol bits = .ok (value, bits')) : value ≤ 258 := by
  rw [valueOf] at h
  split at h
  · cases h
  next base extra hentry =>
    obtain ⟨⟨more, _⟩, htake, h⟩ := bind_eq_ok_iff.mp h
    obtain ⟨rfl, -⟩ := Prod.mk.inj (Except.ok.inj h)
    have hmore := take_lt htake
    have htable : ∀ e ∈ lengths, e.1 + 2 ^ e.2 ≤ 259 := by decide
    have hbase := htable _ (Array.mem_of_getElem? hentry)
    dsimp only at hbase
    omega

theorem advances_distance {code : PrefixCode} {written d : Nat}
    (h : distance code written bits = .ok (d, bits')) : Advances 0 bits bits' := by
  rw [distance] at h
  obtain ⟨⟨_, _⟩, hsymbol, h⟩ := bind_eq_ok_iff.mp h
  obtain ⟨⟨_, _⟩, hvalue, h⟩ := bind_eq_ok_iff.mp h
  obtain ⟨-, rfl⟩ := Prod.mk.inj (Except.ok.inj (of_guard h))
  exact ((advances_symbol hsymbol).mono (Nat.zero_le _)).then (advances_valueOf hvalue)

/-- The octets that a symbol writes. -/
def Meaning.length : Meaning → Nat
  | literal _ => 1
  | copy _ length => length
  | last => 0

/-- **A symbol takes a bit at least, and writes 258 octets at most.** -/
theorem readSymbol_eq_ok {literals back : PrefixCode} {written : Nat} {meaning : Meaning}
    (h : readSymbol literals back written bits = .ok (meaning, bits')) :
    Advances 1 bits bits' ∧ meaning.length ≤ 258 := by
  rw [readSymbol] at h
  obtain ⟨⟨symbol, bits₁⟩, hsymbol, h⟩ := bind_eq_ok_iff.mp h
  have hbits := advances_symbol hsymbol
  dsimp only at h
  split at h
  · obtain ⟨rfl, rfl⟩ := Prod.mk.inj (Except.ok.inj h)
    exact ⟨hbits, Nat.le_of_ble_eq_true rfl⟩
  split at h
  · obtain ⟨rfl, rfl⟩ := Prod.mk.inj (Except.ok.inj h)
    exact ⟨hbits, Nat.zero_le _⟩
  obtain ⟨⟨_, _⟩, hlength, h⟩ := bind_eq_ok_iff.mp h
  obtain ⟨⟨_, _⟩, hdistance, h⟩ := bind_eq_ok_iff.mp h
  obtain ⟨rfl, rfl⟩ := Prod.mk.inj (Except.ok.inj h)
  exact ⟨hbits.then ((advances_valueOf hlength).then (advances_distance hdistance)),
    valueOf_lengths_le hlength⟩

/-! ## The codes of a block -/

theorem advances_readTriples : ∀ {n : Nat} {triples : List Nat} {bits bits' : Bits},
    readTriples n bits = .ok (triples, bits') → Advances 0 bits bits'
  | 0, _, bits, _, h => by
    obtain ⟨-, rfl⟩ := Prod.mk.inj (Except.ok.inj h)
    exact .refl _
  | n + 1, _, bits, _, h => by
    rw [readTriples] at h
    obtain ⟨⟨_, _⟩, htake, h⟩ := bind_eq_ok_iff.mp h
    obtain ⟨⟨_, _⟩, hothers, h⟩ := bind_eq_ok_iff.mp h
    obtain ⟨-, rfl⟩ := Prod.mk.inj (Except.ok.inj h)
    exact (advances_take htake).then (advances_readTriples hothers)

theorem advances_lengthSymbol {code : PrefixCode} {symbol : Nat}
    (h : lengthSymbol code bits = .ok (symbol, bits')) : Advances 1 bits bits' := by
  rw [lengthSymbol] at h
  split at h
  · obtain ⟨⟨_, _⟩, hnext, h⟩ := bind_eq_ok_iff.mp h
    obtain ⟨-, rfl⟩ := Prod.mk.inj (Except.ok.inj h)
    exact advances_next hnext
  · exact advances_symbol h

theorem advances_lengthsOf {symbol : Nat} {read added : List Nat}
    (h : lengthsOf symbol read bits = .ok (added, bits')) : Advances 0 bits bits' := by
  rw [lengthsOf] at h
  split at h
  · obtain ⟨-, rfl⟩ := Prod.mk.inj (Except.ok.inj h)
    exact .refl _
  · obtain ⟨⟨_, _⟩, htake, h⟩ := bind_eq_ok_iff.mp h
    obtain ⟨_, -, h⟩ := bind_eq_ok_iff.mp h
    obtain ⟨-, rfl⟩ := Prod.mk.inj (Except.ok.inj h)
    exact advances_take htake

theorem advances_readLengths {code : PrefixCode} {wanted : Nat} : ∀ {fuel : Nat}
    {read all : List Nat} {bits bits' : Bits},
    readLengths code wanted fuel bits read = .ok (all, bits') → Advances 0 bits bits'
  | 0, _, _, _, _, h => by cases h
  | fuel + 1, read, all, bits, bits', h => by
    rw [readLengths] at h
    split at h
    · obtain ⟨-, rfl⟩ := Prod.mk.inj (Except.ok.inj h)
      exact .refl _
    obtain ⟨⟨_, _⟩, hsymbol, h⟩ := bind_eq_ok_iff.mp h
    obtain ⟨⟨_, _⟩, hadded, h⟩ := bind_eq_ok_iff.mp h
    exact ((advances_lengthSymbol hsymbol).mono (Nat.zero_le _)).then
      ((advances_lengthsOf hadded).then (advances_readLengths (of_guard h)))

theorem advances_readCodes {literals back : PrefixCode}
    (h : readCodes bits = .ok (literals, back, bits')) : Advances 0 bits bits' := by
  rw [readCodes] at h
  obtain ⟨⟨_, _⟩, hliterals, h⟩ := bind_eq_ok_iff.mp h
  obtain ⟨⟨_, _⟩, hdistances, h⟩ := bind_eq_ok_iff.mp h
  obtain ⟨⟨_, _⟩, hlengths, h⟩ := bind_eq_ok_iff.mp h
  obtain ⟨⟨_, _⟩, htriples, h⟩ := bind_eq_ok_iff.mp (of_guard h)
  obtain ⟨⟨_, _⟩, hall, h⟩ := bind_eq_ok_iff.mp (of_guard h)
  obtain ⟨-, hlast⟩ := Prod.mk.inj (Except.ok.inj (of_guard h))
  obtain ⟨-, rfl⟩ := Prod.mk.inj hlast
  exact (advances_take hliterals).then ((advances_take hdistances).then
    ((advances_take hlengths).then
      ((advances_readTriples htriples).then (advances_readLengths hall))))

/-! ## Steps that write -/

variable {out out' : Output} {total bound : Nat}

/-- How many octets steps write. -/
def lengthOf (steps : List Step) : Nat := (steps.map Step.length).sum

theorem lengthOf_append (steps steps' : List Step) :
    lengthOf (steps ++ steps') = lengthOf steps + lengthOf steps' := by
  rw [lengthOf, List.map_append, List.sum_append, lengthOf, lengthOf]

/-- Every step is ready once `total` octets of the input are there. -/
def Ready (total : Nat) (steps : List Step) : Prop := ∀ s ∈ steps, s.ready total = s.length

/-- **What was written up to some bits**: the steps tell it, they are ready once the whole input is
there, and every bit that was read wrote 258 octets at most. -/
structure Reading (total bound : Nat) (bits : Bits) (out : Output) : Prop where
  input : bits.read + bits.rest.length = total
  length : lengthOf out.steps.toList = out.octets.size
  ready : Ready total out.steps.toList
  room : out.octets.size + 258 * bits.left ≤ bound

/-- Nothing was written for what was read. -/
theorem Reading.pass (h : Reading total bound bits out) (hbits : Advances n bits bits') :
    Reading total bound bits' out where
  input := hbits.total.trans h.input
  length := h.length
  ready := h.ready
  room := by
    have := hbits.left
    have := h.room
    omega

/-- **One step was written** for what was read. -/
theorem Reading.step {s : Step} (h : Reading total bound bits out) (hbits : Advances n bits bits')
    (hsteps : out'.steps = out.steps.push s)
    (hsize : out'.octets.size = out.octets.size + s.length) (hready : s.ready total = s.length)
    (hle : s.length ≤ 258 * n) : Reading total bound bits' out' where
  input := hbits.total.trans h.input
  length := by
    rw [hsteps, Array.toList_push, lengthOf_append, h.length, hsize]
    rfl
  ready := by
    rw [hsteps, Array.toList_push]
    intro s' hs'
    rcases List.mem_append.mp hs' with hs' | hs'
    · exact h.ready s' hs'
    · exact List.mem_singleton.mp hs' ▸ hready
  room := by
    have := hbits.left
    have := h.room
    omega

theorem ready_coded {length needed : Nat} (h : needed ≤ total) :
    (Step.coded length needed).ready total = length := if_pos h

theorem size_copyBack (d : Nat) : ∀ (length : Nat) (octets : Array UInt8),
    (copyBack d length octets).size = octets.size + length
  | 0, _ => rfl
  | length + 1, octets => by
    rw [copyBack, size_copyBack, Array.size_push, Nat.add_assoc, Nat.add_comm 1]

theorem Reading.read_le (h : Reading total bound bits out) : bits.read ≤ total :=
  h.input ▸ Nat.le_add_right _ _

theorem Reading.literal (octet : UInt8) (h : Reading total bound bits out)
    (hbits : Advances 1 bits bits') : Reading total bound bits' (out.literal octet bits') :=
  h.step hbits rfl (Array.size_push ..) (ready_coded (h.pass hbits).read_le)
    (Nat.le_of_ble_eq_true rfl)

theorem Reading.copy {length : Nat} (d : Nat) (h : Reading total bound bits out)
    (hbits : Advances 1 bits bits') (hlength : length ≤ 258) :
    Reading total bound bits' (out.copy d length bits') :=
  h.step hbits rfl (size_copyBack ..) (ready_coded (h.pass hbits).read_le) hlength

/-! ## Blocks -/

theorem reading_readSymbols {literals back : PrefixCode} : ∀ {fuel : Nat} {bits : Bits}
    {out : Output}, readSymbols literals back fuel bits out = (out', .ok bits') →
      Reading total bound bits out → Reading total bound bits' out'
  | 0, _, _, h, _ => by
    rw [readSymbols] at h
    cases h
  | fuel + 1, bits, out, h, hr => by
    rw [readSymbols] at h
    split at h
    · cases h
    next octet bits₁ hsymbol =>
      exact reading_readSymbols h (hr.literal octet (readSymbol_eq_ok hsymbol).1)
    next d length bits₁ hsymbol =>
      obtain ⟨hbits, hle⟩ := readSymbol_eq_ok hsymbol
      exact reading_readSymbols h (hr.copy d hbits hle)
    next bits₁ hsymbol =>
      obtain ⟨rfl, hlast⟩ := Prod.mk.inj h
      exact Except.ok.inj hlast ▸ hr.pass (readSymbol_eq_ok hsymbol).1

theorem reading_readStored (h : readStored bits out = (out', .ok bits'))
    (hr : Reading total bound bits out) : Reading total bound bits' out' := by
  rw [readStored] at h
  dsimp only at h
  split at h
  · cases h
  next hheader =>
  split at h
  · cases h
  split at h
  · cases h
  next hwhole =>
  generalize Bytes.field bits.rest 0 2 = length at h hwhole
  obtain ⟨rfl, hlast⟩ := Prod.mk.inj h
  obtain rfl := Except.ok.inj hlast
  rw [List.length_take, Nat.not_lt, Nat.le_min] at hwhole
  rw [List.isEmpty_iff, List.drop_eq_nil_iff] at hheader
  have hr' := hr.pass (advances_skip (by omega : 4 ≤ bits.rest.length))
  have hbits := advances_skip hwhole.2
  have hlength : (List.take length (bits.skip 4).rest).length = length :=
    List.length_take_of_le hwhole.2
  refine hr'.step (s := .stored length (bits.skip 4).read) hbits ?_ ?_ ?_ ?_
  · rw [Output.stored, hlength]
  · simp [Output.stored, hlength, Step.length]
  · have := (hr'.pass hbits).read_le
    exact Nat.min_eq_left (Nat.le_sub_of_add_le' this)
  · rw [Step.length]
    omega

theorem reading_readBlock {limit kind : Nat} (h : readBlock limit kind bits out = (out', .ok bits'))
    (hr : Reading total bound bits out) : Reading total bound bits' out' := by
  rw [readBlock] at h
  split at h
  · exact reading_readStored h hr
  split at h
  · exact reading_readSymbols h hr
  split at h
  · split at h
    · cases h
    next hcodes => exact reading_readSymbols h (hr.pass (advances_readCodes hcodes))
  · cases h

theorem advances_readHeader {final kind : Nat}
    (h : readHeader bits = .ok (final, kind, bits')) : Advances 0 bits bits' := by
  rw [readHeader] at h
  obtain ⟨⟨_, _⟩, hfinal, h⟩ := bind_eq_ok_iff.mp h
  obtain ⟨⟨_, _⟩, hkind, h⟩ := bind_eq_ok_iff.mp h
  obtain ⟨-, hlast⟩ := Prod.mk.inj (Except.ok.inj h)
  obtain ⟨-, rfl⟩ := Prod.mk.inj hlast
  exact (advances_take hfinal).then (advances_take hkind)

/-- **Reading up to the end** keeps account of all that it writes. -/
theorem reading_readBlocks {limit : Nat} : ∀ {fuel : Nat} {bits : Bits} {out : Output},
    readBlocks limit fuel bits out = (out', .ok n) → Reading total bound bits out →
      ∃ bits', Reading total bound bits' out' ∧ bits'.read = n
  | 0, _, _, h, _ => by
    rw [readBlocks] at h
    cases h
  | fuel + 1, bits, out, h, hr => by
    rw [readBlocks] at h
    split at h
    · cases h
    next final kind bits₁ hheader =>
    split at h
    · cases h
    next hblock =>
    have hr' := reading_readBlock hblock (hr.pass (advances_readHeader hheader))
    split at h
    · obtain ⟨rfl, hlast⟩ := Prod.mk.inj h
      exact ⟨_, hr', Except.ok.inj hlast⟩
    · exact reading_readBlocks h hr'

/-! ## Streams -/

/-- **What a whole stream holds** is told by its steps, all of which the stream lets write, and is
at most 2064 times as long. -/
structure IsWhole (stream : Bytes) (n : Nat) : Prop where
  ends : n ≤ stream.length
  length : lengthOf (inflate stream).steps = (inflate stream).content.length
  ready : Ready stream.length (inflate stream).steps
  length_le : (inflate stream).content.length ≤ 2064 * stream.length

theorem inflate_eq {stream : Bytes} {ending : Except Halt Nat}
    (h : readBlocks (8 * stream.length + 1) (8 * stream.length + 1) ⟨stream, 0, 0, 0⟩ {}
      = (out, ending)) : inflate stream = ⟨out.octets.toList, out.steps.toList, ending⟩ := by
  rw [inflate]
  exact congrArg (fun p => Inflated.mk p.1.octets.toList p.1.steps.toList p.2) h

theorem isWhole_of_ending {stream : Bytes} (h : (inflate stream).ending = .ok n) :
    IsWhole stream n := by
  rcases hblocks : readBlocks (8 * stream.length + 1) (8 * stream.length + 1) ⟨stream, 0, 0, 0⟩ {}
    with ⟨out, ending⟩
  have hinflate := inflate_eq hblocks
  obtain rfl : ending = .ok n := by rwa [hinflate] at h
  have hr : Reading stream.length (258 * (8 * stream.length)) ⟨stream, 0, 0, 0⟩ {} :=
    ⟨Nat.zero_add _, rfl, fun s hs => absurd hs List.not_mem_nil, by simp [Bits.left]⟩
  obtain ⟨bits, hr', rfl⟩ := reading_readBlocks hblocks hr
  refine ⟨hr'.read_le, ?_, ?_, ?_⟩
  · simp only [hinflate, Array.length_toList]
    exact hr'.length
  · rw [hinflate]
    exact hr'.ready
  · have hroom := hr'.room
    simp only [hinflate, Array.length_toList]
    omega

/-- The stream holds the content, up to an end. -/
def Holds (stream content : Bytes) : Prop :=
  (inflate stream).content = content ∧ ∃ n, (inflate stream).ending = .ok n

/-- **What a stream holds is at most 2064 times as long.** -/
theorem Holds.length_le {stream content : Bytes} (h : Holds stream content) :
    content.length ≤ 2064 * stream.length := by
  obtain ⟨rfl, n, hn⟩ := h
  exact (isWhole_of_ending hn).length_le

end GuardedArchive.Inflate
