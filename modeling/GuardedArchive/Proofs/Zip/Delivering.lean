import GuardedArchive.Proofs.Stream
import GuardedArchive.Proofs.Zip.Inflating

/-!
# Proofs/Zip/Delivering — a whole stream delivers what it holds

    steps  ──deliver──▸  n octets, and the steps that are left
    turns  ──reads─────▸  content, in chunks

As long as octets are missing a turn delivers some or takes more of the stream
(`Pending.used_eq`), and behind the last piece every step is ready, so that the whole content is
delivered (`reads_eq`).
-/

namespace GuardedArchive.Inflate

theorem lengthOf_cons (s : Step) (steps : List Step) :
    lengthOf (s :: steps) = s.length + lengthOf steps := by
  rw [lengthOf, List.map_cons, List.sum_cons, lengthOf]

theorem Step.length_drop (n : Nat) (s : Step) : (s.drop n).length = s.length - n := by
  cases s <;> rfl

theorem Step.ready_le (given : Nat) (s : Step) : s.ready given ≤ s.length := by
  cases s with
  | coded length needed =>
    rw [ready]
    split
    · exact Nat.le_refl _
    · exact Nat.zero_le _
  | stored length start => exact Nat.min_le_left _ _

theorem Step.ready_drop {total n : Nat} {s : Step} (h : s.ready total = s.length) :
    (s.drop n).ready total = (s.drop n).length := by
  cases s with
  | coded length needed =>
    simp only [ready, drop, Step.length] at *
    split <;> simp_all
    omega
  | stored length start =>
    simp only [ready, drop, Step.length] at *
    omega

/-- A delivery of `n` octets out of steps, which leaves others.  Where there is room it takes what
is ready at the front, and all that there is behind the end of the input. -/
structure Delivers (total given : Nat) (hasRoom : Prop) (steps : List Step) (n : Nat)
    (left : List Step) : Prop where
  length : lengthOf steps = n + lengthOf left
  ready : Ready total left
  all : hasRoom → given = total → n = 0 → left = []
  front : hasRoom → ∀ s rest, steps = s :: rest → 0 < s.ready given → 0 < n

/-- **What is ready is delivered** as far as there is room. -/
theorem deliver_delivers {total room : Nat} (given : Nat) : ∀ {steps : List Step} (count : Nat),
    Ready total steps → ∃ n left, deliver given room steps count = (count + n, left)
      ∧ Delivers total given (count < room) steps n left
  | [], count, h => ⟨0, [], rfl, rfl, h, fun _ _ _ => rfl, by simp⟩
  | s :: rest, count, h => by
    have hs := h s List.mem_cons_self
    have hrest : Ready total rest := fun s' hs' => h s' (List.mem_cons_of_mem s hs')
    have hle := s.ready_le given
    by_cases hpart : min (room - count) (s.ready given) < s.length
    · refine ⟨min (room - count) (s.ready given), _, by rw [deliver, if_pos hpart], ?_, ?_, ?_, ?_⟩
      · rw [lengthOf_cons, lengthOf_cons, Step.length_drop]
        omega
      · exact List.forall_mem_cons.mpr ⟨Step.ready_drop hs, hrest⟩
      · rintro hroom rfl hn
        omega
      · rintro hroom _ _ ⟨rfl, rfl⟩ hready
        omega
    · have hwhole : min (room - count) (s.ready given) = s.length := by omega
      obtain ⟨n, left, hd, hn⟩ := deliver_delivers given (count + s.length) hrest
      refine ⟨s.length + n, left, by rw [deliver, if_neg hpart, hwhole, hd, Nat.add_assoc],
        by rw [lengthOf_cons, hn.length, Nat.add_assoc], hn.ready, fun hroom hgiven hzero => ?_, ?_⟩
      · exact hn.all (by omega) hgiven (by omega)
      · rintro hroom _ _ ⟨rfl, rfl⟩ hready
        omega

/-- Steps that are still to be delivered between two turns: if part of the input is not used up, the
first of them is ready. -/
structure Pending (total used given : Nat) (steps : List Step) (content : Bytes) : Prop where
  length : lengthOf steps = content.length
  ready : Ready total steps
  within : given ≤ total
  waiting : used < given → ∃ s rest, steps = s :: rest ∧ 0 < s.ready given

theorem Pending.delivered {total used given given' n : Nat} {hasRoom : Prop}
    {steps left : List Step} {content : Bytes} (h : Pending total used given steps content)
    (hn : Delivers total given' hasRoom steps n left) (hle : given' ≤ total) :
    Pending total (usedOf given' left) given' left (content.drop n) where
  length := by
    have := hn.length
    rw [h.length] at this
    rw [List.length_drop]
    omega
  ready := hn.ready
  within := hle
  waiting hused := by
    cases left with
    | nil => exact absurd hused (Nat.lt_irrefl _)
    | cons s rest =>
      by_cases hs : 0 < s.ready given'
      · exact ⟨s, rest, rfl, hs⟩
      · rw [usedOf, if_neg hs] at hused
        exact absurd hused (Nat.lt_irrefl _)

/-- Between two turns without a delivery more of the input is taken. -/
theorem Pending.used_eq {total used given given' n : Nat} {steps left : List Step}
    {content : Bytes} (h : Pending total used given steps content)
    (hn : Delivers total given' True steps n left) (hzero : n = 0)
    (hgiven : used < given → given = given') : ¬used < given := fun hused => by
  obtain ⟨s, rest, hs, hready⟩ := h.waiting hused
  exact absurd hzero (Nat.pos_iff_ne_zero.mp (hn.front trivial s rest hs (hgiven hused ▸ hready)))

/-- **Turn by turn the whole content is delivered**, in chunks with `last` behind them.  Each turn
delivers octets or takes some of the input. -/
theorem readsFrom_eq {total stop : Nat} (hstop : stop ≤ total) (last : List Read) :
    ∀ {fuel used given : Nat} {steps : List Step} {content : Bytes},
      Pending total used given steps content → content.length + (total - given) < fuel →
        ∃ reads, Stream.Carries reads content
          ∧ readsFrom total (.ok stop) last fuel used given steps content = reads ++ last
  | fuel + 1, used, given, steps, content, h, hfuel => by
    have hwithin := h.within
    rw [readsFrom]
    generalize hgiven : (if used < given then given else min (given + pieceSize) total) = given'
    have hle : given ≤ given' ∧ given' ≤ total := by
      split_ifs at hgiven <;> omega
    obtain ⟨n, left, hd, hn⟩ := deliver_delivers given' 0 h.ready
    have hroom : (0 < Stream.bufferSize) = True := eq_true (by decide)
    rw [hroom] at hn
    have hlength := hn.length
    rw [h.length] at hlength
    simp only [hd, Nat.zero_add, failsWithin, Bool.and_false, Bool.false_eq_true, if_false]
    by_cases hpos : 0 < n
    · have hfuel' : (content.drop n).length + (total - given') < fuel := by
        rw [List.length_drop]
        omega
      obtain ⟨reads, hcarries, hreads⟩ := readsFrom_eq hstop last (h.delivered hn hle.2) hfuel'
      have hchunk : content.take n ≠ [] := fun hnil => by
        have := congrArg List.length hnil
        rw [List.length_take_of_le (by omega), List.length_nil] at this
        omega
      have hall := Stream.Carries.cons hchunk hcarries
      rw [List.take_append_drop] at hall
      rw [if_pos hpos, hreads]
      exact ⟨_, hall, rfl⟩
    have hzero : n = 0 := Nat.eq_zero_of_not_pos hpos
    rw [hzero, Nat.zero_add] at hlength
    rw [if_neg hpos]
    by_cases hends : (left.isEmpty && endsWithin given' (.ok stop)) = true
    · obtain rfl := List.isEmpty_iff.mp (Bool.and_eq_true_iff.mp hends).1
      obtain rfl := List.eq_nil_of_length_eq_zero hlength
      exact ⟨[], .nil, if_pos hends⟩
    · have hmissing : given' ≠ total := fun hend => by
        obtain rfl := hn.all trivial hend hzero
        exact hends (by rw [endsWithin, hend]; simpa using hstop)
      have hused : ¬used < given := h.used_eq hn hzero fun hused => by rw [← hgiven, if_pos hused]
      have hmore : given < given' := by
        rw [if_neg hused, pieceSize] at hgiven
        omega
      rw [if_neg hends, if_neg hmissing]
      exact readsFrom_eq hstop last
        ⟨hlength.symm, hn.ready, hle.2, fun h => absurd h (Nat.lt_irrefl _)⟩ (by omega)

/-- **The reads of a whole stream deliver what it holds**, in chunks. -/
theorem reads_eq {stream content : Bytes} (h : Holds stream content) (last : Bytes → List Read) :
    ∃ front, Stream.Carries front content ∧ reads stream last = front ++ last content := by
  obtain ⟨rfl, n, hending⟩ := h
  have hwhole := isWhole_of_ending hending
  rw [reads]
  simp only [hending]
  exact readsFrom_eq hwhole.ends (last (inflate stream).content)
    ⟨hwhole.length, hwhole.ready, Nat.zero_le _, fun h => absurd h (Nat.lt_irrefl 0)⟩ (by omega)

end GuardedArchive.Inflate
