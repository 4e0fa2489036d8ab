import Mathlib.Tactic.SplitIfs
import GuardedArchive.Proofs.Stream

/-!
# Proofs/Stream/Copying — the course of one copy

    interrupted*  chunk₁  interrupted*  chunk₂ … chunkₙ  interrupted*  │ the ending read │ unread
                    └ accept chunk₁ t₁    └ accept chunk₂ t₂

A copy goes on over interruptions and chunks, and one read ends it (`Ending`).  Its calls are the
chunks with their running totals (`calls`), whatever the receiver does with them; a receiver that
keeps a log of its calls (`logged`) shows that these are all.  The copy works through one buffer
that each read overwrites in front (`copyThrough`), and what an earlier read left there is never
handed on (`copyThrough_eq`).
-/

namespace GuardedArchive

/-- A read that a copy goes on after, if its chunk is accepted. -/
def Read.GoesOn : Read → Prop
  | .data octets => octets ≠ []
  | .interrupted => True
  | .failure _ => False

namespace Stream

variable {σ : Type} {accept : Bytes → Nat → σ → Except ArchiveError Unit × σ}
  {reads reads' offers rest : List Read} {chunk : Bytes} {chunks : List Bytes} {total : Nat}
  {s s' : σ}

/-! ## Reads into a buffer -/

/-- The reads that an offer of octets takes, as far as the buffer goes each time. -/
def inReads : Read → List Read
  | .data [] => [.data []]
  | .data (b :: bs) => readsOf (b :: bs)
  | .interrupted => [.interrupted]
  | .failure e => [.failure e]

/-- The chunks that reads deliver. -/
def chunksOf (reads : List Read) : List Bytes :=
  reads.filterMap fun
    | .data (b :: bs) => some (b :: bs)
    | _ => none

theorem chunksOf_nil : chunksOf [] = [] := rfl

theorem chunksOf_append : chunksOf (reads ++ reads') = chunksOf reads ++ chunksOf reads' :=
  List.filterMap_append

theorem chunksOf_data (hne : chunk ≠ []) :
    chunksOf (.data chunk :: reads) = chunk :: chunksOf reads := by
  obtain ⟨b, bs, rfl⟩ := List.exists_cons_of_ne_nil hne
  rfl

/-- **A chunk is a delivery that is not empty.** -/
theorem mem_chunksOf_iff : chunk ∈ chunksOf reads ↔ .data chunk ∈ reads ∧ chunk ≠ [] := by
  rw [chunksOf, List.mem_filterMap]
  constructor
  · rintro ⟨_ | _ | _, hr, hc⟩
    · rename_i octets
      cases octets with
      | nil => cases hc
      | cons b bs =>
        obtain rfl := Option.some.inj hc
        exact ⟨hr, List.cons_ne_nil _ _⟩
    · cases hc
    · cases hc
  · rintro ⟨hr, hne⟩
    obtain ⟨b, bs, rfl⟩ := List.exists_cons_of_ne_nil hne
    exact ⟨_, hr, rfl⟩

theorem Carries.flatten_chunksOf {content : Bytes} (h : Carries reads content) :
    (chunksOf reads).flatten = content := by
  induction h with
  | nil => rfl
  | cons hne _ ih => rw [chunksOf_data hne, List.flatten_cons, ih]

/-- No read delivers more than the buffer holds. -/
theorem length_le_of_mem_chunksUpTo {size : Nat} : ∀ {count : Nat} {content : Bytes},
    ∀ chunk ∈ chunksUpTo size count content, chunk.length ≤ size
  | 0, _, _, h => absurd h List.not_mem_nil
  | count + 1, content, chunk, h => by
    rw [chunksUpTo] at h
    split at h
    · exact absurd h List.not_mem_nil
    · rcases List.mem_cons.mp h with rfl | h
      · rw [List.length_take]
        exact Nat.min_le_left _ _
      · exact length_le_of_mem_chunksUpTo chunk h

theorem length_le_of_mem_inReads (offers : List Read) :
    ∀ chunk, .data chunk ∈ offers.flatMap inReads → chunk.length ≤ bufferSize := by
  intro chunk h
  obtain ⟨offer, -, h⟩ := List.mem_flatMap.mp h
  cases offer with
  | data octets =>
    cases octets with
    | nil =>
      obtain rfl : chunk = [] := by simpa [inReads] using h
      exact Nat.zero_le _
    | cons b bs =>
      obtain ⟨chunk', hc, he⟩ := List.mem_map.mp h
      obtain rfl := Read.data.inj he
      exact length_le_of_mem_chunksUpTo _ hc
  | interrupted => simp [inReads] at h
  | failure e => simp [inReads] at h

/-- **Reading with a buffer loses nothing of what is offered.** -/
theorem flatten_chunksOf_inReads : ∀ offers : List Read,
    (chunksOf (offers.flatMap inReads)).flatten = (chunksOf offers).flatten
  | [] => rfl
  | offer :: offers => by
    rw [List.flatMap_cons, chunksOf_append, List.flatten_append, flatten_chunksOf_inReads offers]
    cases offer with
    | data octets =>
      cases octets with
      | nil => rfl
      | cons b bs =>
        rw [chunksOf_data (List.cons_ne_nil b bs), List.flatten_cons, inReads,
          (carries_readsOf (b :: bs)).flatten_chunksOf]
    | interrupted => rfl
    | failure e => rfl

/-! ## Calls -/

/-- The calls for chunks: each with the octets up to its end. -/
def calls : Nat → List Bytes → List (Bytes × Nat)
  | _, [] => []
  | total, chunk :: chunks => (chunk, total + chunk.length) :: calls (total + chunk.length) chunks

/-- What comes of calls that are made one behind the other until one is refused. -/
def feed (accept : Bytes → Nat → σ → Except ArchiveError Unit × σ) :
    List (Bytes × Nat) → σ → Except ArchiveError Unit × σ
  | [], s => (.ok (), s)
  | (chunk, total) :: rest, s =>
    match accept chunk total s with
    | (.ok (), s') => feed accept rest s'
    | (.error e, s') => (.error e, s')

/-- A receiver that notes each call behind those before. -/
def logged (accept : Bytes → Nat → σ → Except ArchiveError Unit × σ) (chunk : Bytes) (total : Nat)
    (s : σ × List (Bytes × Nat)) : Except ArchiveError Unit × (σ × List (Bytes × Nat)) :=
  ((accept chunk total s.1).1, (accept chunk total s.1).2, s.2 ++ [(chunk, total)])

theorem calls_append (chunks' : List Bytes) : ∀ (chunks : List Bytes) (total : Nat),
    calls total (chunks ++ chunks') = calls total chunks
      ++ calls (total + chunks.flatten.length) chunks'
  | [], _ => rfl
  | chunk :: chunks, total => by
    rw [List.cons_append, calls, calls, calls_append chunks' chunks, List.flatten_cons,
      List.length_append, Nat.add_assoc, List.cons_append]

theorem map_fst_calls : ∀ (chunks : List Bytes) (total : Nat),
    (calls total chunks).map Prod.fst = chunks
  | [], _ => rfl
  | chunk :: chunks, total => by rw [calls, List.map_cons, map_fst_calls chunks]

/-- **The total of a call counts the chunks before it and its own.** -/
theorem total_of_calls {front back : List (Bytes × Nat)} {call : Bytes × Nat}
    (h : calls total chunks = front ++ call :: back) :
    call.2 = total + (front.map Prod.fst).flatten.length + call.1.length := by
  obtain ⟨chunk, n⟩ := call
  have hchunks := map_fst_calls chunks total
  rw [h, List.map_append, List.map_cons] at hchunks
  rw [← hchunks, calls_append, calls] at h
  have hlen : (calls total (front.map Prod.fst)).length = front.length := by
    rw [← List.length_map Prod.fst, map_fst_calls, List.length_map]
  exact (congrArg Prod.snd (List.cons.inj (List.append_inj h hlen).2).1).symm

/-- **The totals increase** where no chunk is empty. -/
theorem pairwise_calls : ∀ (chunks : List Bytes) (total : Nat), (∀ chunk ∈ chunks, chunk ≠ []) →
    (∀ n ∈ (calls total chunks).map Prod.snd, total < n)
      ∧ ((calls total chunks).map Prod.snd).Pairwise (· < ·)
  | [], _, _ => ⟨fun _ h => absurd h List.not_mem_nil, .nil⟩
  | chunk :: chunks, total, hne => by
    obtain ⟨hchunk, hne⟩ := List.forall_mem_cons.mp hne
    obtain ⟨habove, hincreasing⟩ := pairwise_calls chunks (total + chunk.length) hne
    have hpos := List.length_pos_iff.mpr hchunk
    refine ⟨List.forall_mem_cons.mpr ⟨by dsimp only; omega, fun n hn => ?_⟩,
      List.pairwise_cons.mpr ⟨habove, hincreasing⟩⟩
    have := habove n hn
    omega

/-! ## The end of a copy -/

/-- **What ends a copy** that has come to `rest`: nothing is left, an empty read, a failure, or a
chunk that is refused.  `last` is the chunk of the last call, where that was refused. -/
inductive Ending (accept : Bytes → Nat → σ → Except ArchiveError Unit × σ) (s : σ) (total : Nat) :
    List Read → List Bytes → Copied σ → Prop
  | drained : Ending accept s total [] [] ⟨.ok total, s, []⟩
  | empty (unread : List Read) :
    Ending accept s total (.data [] :: unread) [] ⟨.ok total, s, unread⟩
  | failed (e : IoError) (unread : List Read) :
    Ending accept s total (.failure e :: unread) [] ⟨.error (.io e), s, unread⟩
  | refused {chunk : Bytes} {e : ArchiveError} {s' : σ} (unread : List Read) (hne : chunk ≠ [])
      (h : accept chunk (total + chunk.length) s = (.error e, s')) :
    Ending accept s total (.data chunk :: unread) [chunk] ⟨.error e, s', unread⟩

variable {last : List Bytes} {copied : Copied σ}

/-- **A copy succeeds exactly where the reader has no more**, with the octets of all chunks. -/
theorem Ending.ok_iff (h : Ending accept s total rest last copied) {n : Nat} :
    copied.result = .ok n ↔ (rest = [] ∨ ∃ unread, rest = .data [] :: unread) ∧ n = total := by
  cases h with
  | drained => exact ⟨fun h => ⟨.inl rfl, (Except.ok.inj h).symm⟩, fun h => by rw [h.2]⟩
  | empty unread =>
    exact ⟨fun h => ⟨.inr ⟨unread, rfl⟩, (Except.ok.inj h).symm⟩, fun h => by rw [h.2]⟩
  | failed e unread => simp
  | refused unread hne _ => simp [hne]

/-- The chunk of a refused call is one of those that are read. -/
theorem Ending.mem_chunksOf (h : Ending accept s total rest last copied) :
    ∀ chunk ∈ last, chunk ∈ chunksOf rest := by
  cases h with
  | drained | empty | failed => exact fun _ h => absurd h List.not_mem_nil
  | refused unread hne _ =>
    intro chunk hc
    obtain rfl := List.mem_singleton.mp hc
    exact mem_chunksOf_iff.mpr ⟨List.mem_cons_self, hne⟩

/-- **A copy goes on over some reads and is ended by the next.**  A receiver with a log has noted
the chunks of those reads, and the one that was refused. -/
theorem exists_ending (accept : Bytes → Nat → σ → Except ArchiveError Unit × σ) :
    ∀ (reads : List Read) (total : Nat) (s : σ) (log : List (Bytes × Nat)),
      total + (chunksOf reads).flatten.length ≤ Bytes.maxCount →
        ∃ onward rest last s', reads = onward ++ rest ∧ (∀ r ∈ onward, r.GoesOn)
          ∧ feed accept (calls total (chunksOf onward)) s = (.ok (), s')
          ∧ Ending accept s' (total + (chunksOf onward).flatten.length) rest last
              (copyFrom accept reads total s)
          ∧ copyFrom (logged accept) reads total (s, log)
            = ⟨(copyFrom accept reads total s).result, ((copyFrom accept reads total s).state,
                log ++ calls total (chunksOf onward ++ last)),
              (copyFrom accept reads total s).unread⟩ := by
  intro reads
  induction reads with
  | nil =>
    intro total s log _
    refine ⟨[], [], [], s, rfl, fun _ h => absurd h List.not_mem_nil, rfl, .drained, ?_⟩
    rw [copyFrom, copyFrom, chunksOf_nil, List.append_nil, calls, List.append_nil]
  | cons read reads ih =>
    intro total s log hfits
    cases read with
    | interrupted =>
      obtain ⟨onward, rest, last, s', rfl, hon, hfeed, hend, hlog⟩ := ih total s log hfits
      exact ⟨.interrupted :: onward, rest, last, s', rfl,
        List.forall_mem_cons.mpr ⟨trivial, hon⟩, hfeed, hend, hlog⟩
    | failure e =>
      refine ⟨[], _, [], s, rfl, fun _ h => absurd h List.not_mem_nil, rfl, .failed e reads, ?_⟩
      rw [copyFrom, copyFrom, chunksOf_nil, List.append_nil, calls, List.append_nil]
    | data octets =>
      by_cases hne : octets = []
      · subst hne
        refine ⟨[], _, [], s, rfl, fun _ h => absurd h List.not_mem_nil, rfl, .empty reads, ?_⟩
        rw [chunksOf_nil, List.append_nil, calls, List.append_nil]
        rfl
      rw [chunksOf_data hne, List.flatten_cons, List.length_append, ← Nat.add_assoc] at hfits
      have hempty : ¬octets.isEmpty := by simpa using hne
      have hcount : ¬Bytes.maxCount < total + octets.length := by omega
      simp only [copyFrom, if_neg hempty, if_neg hcount, logged]
      rcases ha : accept octets (total + octets.length) s with ⟨e | ⟨⟩, s₁⟩
      · exact ⟨[], _, [octets], s, rfl, fun _ h => absurd h List.not_mem_nil, rfl,
          .refused reads hne ha, rfl⟩
      · obtain ⟨onward, rest, last, s', rfl, hon, hfeed, hend, hlog⟩ :=
          ih (total + octets.length) s₁ (log ++ [(octets, total + octets.length)]) hfits
        refine ⟨.data octets :: onward, rest, last, s', rfl,
          List.forall_mem_cons.mpr ⟨hne, hon⟩, ?_, ?_, ?_⟩
        · rw [chunksOf_data hne, calls, feed, ha]
          exact hfeed
        · rw [chunksOf_data hne, List.flatten_cons, List.length_append, ← Nat.add_assoc]
          exact hend
        · rw [chunksOf_data hne, List.cons_append, calls, List.append_cons log _ (calls _ _)]
          exact hlog

/-! ## What makes no difference -/

/-- Reads without the interruptions. -/
def uninterrupted (reads : List Read) : List Read :=
  reads.filter (· ≠ .interrupted)

/-- **Interruptions make no difference**, wherever they are. -/
theorem copyFrom_uninterrupted (accept : Bytes → Nat → σ → Except ArchiveError Unit × σ) :
    ∀ (reads : List Read) (total : Nat) (s : σ), copyFrom accept (uninterrupted reads) total s
      = { copyFrom accept reads total s with
          unread := uninterrupted (copyFrom accept reads total s).unread }
  | [], _, _ => rfl
  | .interrupted :: reads, total, s => copyFrom_uninterrupted accept reads total s
  | .failure _ :: _, _, _ => rfl
  | .data octets :: reads, total, s => by
    have hkeep : uninterrupted (.data octets :: reads) = .data octets :: uninterrupted reads := rfl
    rw [hkeep, copyFrom, copyFrom]
    dsimp only
    split_ifs
    · rfl
    · rfl
    · rcases accept octets (total + octets.length) s with ⟨e | ⟨⟩, s'⟩
      · rfl
      · exact copyFrom_uninterrupted accept reads _ s'

/-- The copy as it works, with one buffer: a read overwrites the front of it, and the receiver is
given as many octets of the buffer as were read. -/
def copyThrough (accept : Bytes → Nat → σ → Except ArchiveError Unit × σ) :
    List Read → Bytes → Nat → σ → Copied σ
  | [], _, total, s => ⟨.ok total, s, []⟩
  | .interrupted :: rest, buffer, total, s => copyThrough accept rest buffer total s
  | .failure e :: rest, _, _, s => ⟨.error (.io e), s, rest⟩
  | .data octets :: rest, buffer, total, s =>
    let count := octets.length
    let filled := octets ++ buffer.drop count
    if count = 0 then ⟨.ok total, s, rest⟩
    else if Bytes.maxCount < total + count then ⟨.error (.io .byteCountOverflow), s, rest⟩
    else match accept (filled.take count) (total + count) s with
    | (.ok (), s') => copyThrough accept rest filled (total + count) s'
    | (.error e, s') => ⟨.error e, s', rest⟩

/-- **What is left in the buffer makes no difference.** -/
theorem copyThrough_eq (accept : Bytes → Nat → σ → Except ArchiveError Unit × σ) :
    ∀ (reads : List Read) (buffer : Bytes) (total : Nat) (s : σ),
      copyThrough accept reads buffer total s = copyFrom accept reads total s
  | [], _, _, _ => rfl
  | .interrupted :: reads, buffer, total, s => copyThrough_eq accept reads buffer total s
  | .failure _ :: _, _, _, _ => rfl
  | .data octets :: reads, buffer, total, s => by
    rw [copyThrough, copyFrom]
    simp only [List.isEmpty_iff, List.length_eq_zero_iff, List.take_left]
    split_ifs
    · rfl
    · rfl
    · rcases accept octets (total + octets.length) s with ⟨e | ⟨⟩, s'⟩
      · rfl
      · exact copyThrough_eq accept reads _ _ s'

/-! ## The whole copy -/

/-- **The course of a copy** that goes over the reads `onward` and is ended by the next: its calls
are `log`, with a chunk `last` that was refused, if one was. -/
structure Course (accept : Bytes → Nat → σ → Except ArchiveError Unit × σ) (s : σ)
    (reads onward rest : List Read) (last : List Bytes) (log : List (Bytes × Nat)) : Prop where
  split : reads = onward ++ rest
  goesOn : ∀ r ∈ onward, r.GoesOn
  ending : ∃ s', feed accept (calls 0 (chunksOf onward)) s = (.ok (), s')
    ∧ Ending accept s' (chunksOf onward).flatten.length rest last (copyChunks accept reads s)
  ok_iff : ∀ n, (copyChunks accept reads s).result = .ok n
    ↔ (rest = [] ∨ ∃ unread, rest = .data [] :: unread) ∧ n = (chunksOf onward).flatten.length
  given : log.map Prod.fst = chunksOf onward ++ last
  sized : ∀ call ∈ log, call.1 ≠ [] ∧ call.1.length ≤ bufferSize
  totals : ∀ front call back, log = front ++ call :: back →
    call.2 = (front.map Prod.fst).flatten.length + call.1.length
  increasing : (log.map Prod.snd).Pairwise (· < ·)
  noted : ∀ reads', uninterrupted reads' = uninterrupted reads →
    (copyChunks (logged accept) reads' (s, [])).result = (copyChunks accept reads s).result
      ∧ (copyChunks (logged accept) reads' (s, [])).state
        = ((copyChunks accept reads s).state, log)
  buffered : ∀ buffer, copyThrough accept reads buffer 0 s = copyChunks accept reads s

/-- **Every copy takes its course**, whatever the reader offers and whatever the receiver does. -/
theorem copyChunks_course (accept : Bytes → Nat → σ → Except ArchiveError Unit × σ) (s : σ)
    (hfits : (chunksOf offers).flatten.length ≤ Bytes.maxCount) :
    ∃ onward rest last log,
      Course accept s (offers.flatMap inReads) onward rest last log := by
  generalize hreads : offers.flatMap inReads = reads
  rw [← flatten_chunksOf_inReads, hreads] at hfits
  obtain ⟨onward, rest, last, s', hsplit, hon, hfeed, hend, hlog⟩ :=
    exists_ending accept reads 0 s [] (by rwa [Nat.zero_add])
  rw [Nat.zero_add] at hend
  have hchunk : ∀ chunk ∈ chunksOf onward ++ last, chunk ≠ [] ∧ chunk.length ≤ bufferSize := by
    intro chunk hc
    have hread : chunk ∈ chunksOf reads := by
      rw [hsplit, chunksOf_append]
      exact List.mem_append.mpr ((List.mem_append.mp hc).imp_right (hend.mem_chunksOf chunk))
    obtain ⟨hdata, hne⟩ := mem_chunksOf_iff.mp hread
    exact ⟨hne, length_le_of_mem_inReads offers chunk (hreads ▸ hdata)⟩
  refine ⟨onward, rest, last, calls 0 (chunksOf onward ++ last), hsplit, hon,
    ⟨s', hfeed, hend⟩, fun n => hend.ok_iff, map_fst_calls _ _, fun call hcall => ?_,
    fun front call back h => ?_, (pairwise_calls _ 0 fun chunk hc => (hchunk chunk hc).1).2,
    fun reads' hsame => ?_, fun buffer => copyThrough_eq accept reads buffer 0 s⟩
  · refine hchunk call.1 ?_
    rw [← map_fst_calls (chunksOf onward ++ last) 0]
    exact List.mem_map_of_mem hcall
  · rw [total_of_calls h, Nat.zero_add]
  · have hquiet := copyFrom_uninterrupted (Stream.logged accept) reads 0 (s, [])
    rw [← hsame, copyFrom_uninterrupted, hlog] at hquiet
    obtain ⟨hresult, hstate, -⟩ := Copied.mk.inj hquiet
    exact ⟨hresult, hstate⟩

/-- A receiver that takes three octets and no more. -/
def takeThree (chunk : Bytes) (total : Nat) (s : Bytes) : Except ArchiveError Unit × Bytes :=
  if total ≤ 3 then (.ok (), s ++ chunk)
  else (.error (.violation (.totalSize total 3)), s)

/-- Two chunks are taken between interruptions and the third is refused; what is behind it stays
unread. -/
theorem copyChunks_course_takeThree :
    (∃ onward rest last log, Course takeThree []
      ([.interrupted, .data [1, 2], .interrupted, .data [3], .data [4, 5], .data [6]].flatMap
        inReads) onward rest last log)
      ∧ copyChunks takeThree
          [.interrupted, .data [1, 2], .interrupted, .data [3], .data [4, 5], .data [6]] []
        = ⟨.error (.violation (.totalSize 5 3)), [1, 2, 3], [.data [6]]⟩ :=
  ⟨copyChunks_course takeThree [] (by decide), rfl⟩

end Stream

end GuardedArchive
