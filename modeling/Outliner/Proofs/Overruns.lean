import Outliner.Proofs.Enumeration

/-!
# Bounds near the largest word

The sum of a start and a bound on the size of a cut can leave the range of a word. A survey whose
bounds are that large may break down, and this module says when.

* A greatest size makes a survey break down exactly at the starts from which it leads past the
  largest word, where they are tried and reached by a path (`Flow.Overruns`). There the wrapped end
  of the range lies before the routine, and the wrapped length is the bound itself, so the range is
  not too short.
* A least size never makes a search for the next cut break down that starts at the beginning, but
  one that goes on behind the end of the routine.
* Whatever is answered before a breakdown is what bounds cut down to the size of the routine give
  (`Survey.Trails`).

* `Outline.cursor_breaks_iff` — so a cursor never breaks down exactly if neither happens.
-/

namespace Outliner

/-- A start that is tried although the greatest size leads past the largest word from there. -/
structure Flow.Overruns (flow : Flow) (minSize maxSize : Int) (start : Nat) : Prop where
  fits : start + max minSize 1 ≤ flow.routine.size
  fresh : ∀ before n, start = before + 1 → flow.routine.code[before]? ≠ some (.line n)
  reached : flow.reachable start
  beyond : Word.max < start + maxSize - 1

/-- What a computation answers, one whose steps answer as much answers too. -/
theorem Answer.bind_ok_mono {ε α β : Type} {x x' : Answer ε α} {f f' : α → Answer ε β} {b : β}
    (hx : ∀ a, x = .ok a → x' = .ok a) (hf : ∀ a b, x = .ok a → f a = .ok b → f' a = .ok b)
    (h : (x >>= f) = .ok b) : (x' >>= f') = .ok b := by
  cases x with
  | error stop => cases h
  | ok a =>
    rw [hx a rfl]
    exact hf a b rfl h

namespace Survey

variable {ε : Type} {h : Hierarchy} {r : Routine} {flow : Flow} {minSize maxSize : Int}
    {start : Nat}

theorem attemptAt_eq_error {s : Survey} {stop : Stop ε} (h : s.attemptAt start = .error stop) :
    stop = .breakdown := by
  unfold attemptAt at h
  grind [Answer.breakdown]

/-- An attempt whose length is long enough only if its range starts before it ends is answered. -/
theorem exists_attempt_of_le (ε : Type) (hr : r.Checked) (hflow : Flow.analyze h r = .ok flow)
    (hle : (make flow minSize maxSize).minSize ≤
        Word.wrap ((make flow minSize maxSize).farthest start - start + 1) →
      start ≤ (make flow minSize maxSize).farthest start) :
    ∃ a, ((make flow minSize maxSize).attemptAt start : Answer ε Attempt) = .ok a := by
  obtain ⟨rfl, -⟩ := Flow.analyze_onward hr hflow
  have hlast := (farthest_spec (make flow minSize maxSize) start).1
  have hsz : (make flow minSize maxSize).size = flow.routine.size := rfl
  unfold attemptAt
  split
  · exact ⟨_, rfl⟩
  dsimp only
  -- the end may be any word from here on: all that matters is that it is not before the start
  generalize (make flow minSize maxSize).farthest start = stop at *
  split
  · exact ⟨_, rfl⟩
  next hlong =>
  have hstart := hle (Int.not_lt.1 hlong)
  obtain ⟨n, rfl⟩ : ∃ n : Nat, stop = n := ⟨stop.toNat, by omega⟩
  have hbreak : flow.footprint start n ≠ .error .breakdown :=
    footprint_ne_breakdown hr hflow (by omega) (by omega)
  change ∃ a, _ = _
  split
  · next hfp => exact absurd hfp hbreak
  · exact ⟨_, rfl⟩
  · split <;> exact ⟨_, rfl⟩

/-- **An attempt whose greatest size stays in the words is answered**, however small it is. -/
theorem exists_attempt_of_le_max (ε : Type) (hr : r.Checked) (hflow : Flow.analyze h r = .ok flow)
    (hsize : (r.size : Int) < 0x4000000000000000) (hmax : Word.min ≤ maxSize)
    (hstart : start ≤ r.size) (hle : start + maxSize - 1 ≤ Word.max) :
    ∃ a, ((make flow minSize maxSize).attemptAt start : Answer ε Attempt) = .ok a := by
  obtain ⟨rfl, -⟩ := Flow.analyze_onward hr hflow
  refine exists_attempt_of_le ε hr hflow fun hlong => ?_
  obtain ⟨hhigh, hlow⟩ := farthest_make flow minSize maxSize start
  have hminSize : (make flow minSize maxSize).minSize = max minSize 1 := rfl
  rw [hminSize] at hlong
  generalize (make flow minSize maxSize).farthest start = stop at *
  unfold Word.wrap Word.max Word.min at *
  omega

/-- The greatest size can be cut down to the size of the routine, unless it leads past the largest
word. -/
theorem attemptAt_clamped (hsize : (flow.routine.size : Int) < 0x4000000000000000)
    (hstart : start ≤ flow.routine.size) (hle : start + maxSize - 1 ≤ Word.max) :
    ((make flow minSize maxSize).attemptAt start : Answer ε Attempt) =
      (make flow minSize (min maxSize flow.routine.size)).attemptAt start := by
  have hbound : min (Word.wrap (start + maxSize - 1)) ((flow.routine.size : Int) - 1) =
      min (Word.wrap (start + min maxSize flow.routine.size - 1))
      ((flow.routine.size : Int) - 1) := by
    by_cases h : maxSize ≤ flow.routine.size
    · rw [Int.min_eq_left h]
    · have hright : min maxSize (flow.routine.size : Int) = flow.routine.size :=
        Int.min_eq_right (by omega)
      rw [hright]
      unfold Word.wrap
      unfold Word.max at hle
      omega
  have hfarthest : (make flow minSize maxSize).farthest start =
      (make flow minSize (min maxSize flow.routine.size)).farthest start := by
    unfold farthest
    dsimp only [make, size]
    rw [hbound]
  unfold attemptAt
  rw [hfarthest]
  rfl

/-- Where a cut is found, a range of the least size fits, no line is marked right before, and a path
leads there. -/
theorem attemptAt_found (hsize : (flow.routine.size : Int) ≤ Word.max)
    (hstart : start ≤ flow.routine.size) {c : Cut}
    (hfound : ((make flow minSize maxSize).attemptAt start : Answer ε Attempt) = .ok (.found c)) :
    start + max minSize 1 ≤ flow.routine.size ∧
      (∀ before n, start = before + 1 → flow.routine.code[before]? ≠ some (.line n)) ∧
      flow.reachable start := by
  have hlast := (farthest_spec (make flow minSize maxSize) start).1
  have hsz : (make flow minSize maxSize).size = flow.routine.size := rfl
  have hminSize : (make flow minSize maxSize).minSize = max minSize 1 := rfl
  unfold attemptAt at hfound
  split at hfound
  · cases hfound
  next hline =>
  dsimp only at hfound
  split at hfound
  · cases hfound
  next hlong =>
  generalize (make flow minSize maxSize).farthest start = stop at *
  split at hfound
  · cases hfound
  · cases hfound
  next fp hfp =>
  obtain ⟨startFrame, exitFrame, -, -, hframe, hafter, -⟩ := Flow.footprint_eq_ok hfp
  -- a footprint is taken at a real offset, so the end has not wrapped
  have hnonneg : 0 ≤ stop := by
    obtain ⟨-, before, -, -, hbefore, -⟩ := Flow.frameAfter_eq_ok hafter
    unfold Flow.frame? at hbefore
    grind
  rw [hminSize, Word.wrap_eq_self (by unfold Word.min; unfold Word.max at hsize; omega) (by omega)]
    at hlong
  refine ⟨by omega, fun before n hsucc hbefore => ?_, ?_⟩
  · exact hline (followsLine_iff.2 ⟨before, n, hsucc, hbefore⟩)
  · rw [Flow.reachable, ← Flow.frame?_natCast, show flow.frame? start = _ from hframe]
    rfl

/-- **An overrun is a breakdown**: the end of the range wraps around to a place before the routine,
and its length to the greatest size. -/
theorem attemptAt_of_overruns (hsize : (flow.routine.size : Int) < 0x4000000000000000)
    (hmax : maxSize ≤ Word.max) (hover : flow.Overruns minSize maxSize start) :
    ((make flow minSize maxSize).attemptAt start : Answer ε Attempt) = Answer.breakdown := by
  obtain ⟨hfits, hfresh, hreached, hbeyond⟩ := hover
  obtain ⟨hhigh, hlow⟩ := farthest_make flow minSize maxSize start
  have hminSize : (make flow minSize maxSize).minSize = max minSize 1 := rfl
  have hline : ¬ (make flow minSize maxSize).followsLine start := fun hline => by
    obtain ⟨before, n, hstart, hbefore⟩ := followsLine_iff.1 hline
    exact hfresh before n hstart hbefore
  unfold attemptAt
  rw [if_neg hline]
  dsimp only
  generalize (make flow minSize maxSize).farthest start = stop at *
  -- the end of the range wraps around once, to a place before the routine
  have hstop : stop = start + maxSize - 1 - 0x10000000000000000 := by
    unfold Word.wrap Word.max at *
    omega
  have hlong : ¬ Word.wrap (stop - start + 1) < (make flow minSize maxSize).minSize := by
    rw [hminSize, hstop]
    unfold Word.wrap Word.max at *
    omega
  have hneg : stop < 0 := by
    unfold Word.max at hmax
    omega
  rw [if_neg hlong]
  obtain ⟨f, hf⟩ := Option.isSome_iff_exists.1 hreached
  have hframe : flow.frame? start = some (some f) := by
    rw [Flow.frame?_natCast]
    exact Option.join_eq_some_iff.1 hf
  -- the frame before the end is asked for with a negative index
  have hcode : ∃ insn, flow.routine.code[stop.toNat]? = some insn := by
    rw [Int.toNat_of_nonpos (Int.le_of_lt hneg)]
    exact ⟨_, Array.getElem?_eq_getElem (show 0 < flow.routine.size by omega)⟩
  obtain ⟨insn, hinsn⟩ := hcode
  have hafter : flow.frameAfter stop = Answer.breakdown := by
    unfold Flow.frameAfter Flow.frame?
    rw [hinsn, if_neg (Int.not_le.2 hneg)]
    rfl
  have hfp : flow.footprint start stop = .error .breakdown := by
    unfold Flow.footprint
    rw [hframe]
    change (flow.frameAfter stop >>= fun _ => _) = _
    rw [hafter]
    rfl
  rw [show (make flow minSize maxSize).flow.footprint start stop = _ from hfp]

/-- An attempt breaks down only where a path leads and no line is marked right before. -/
theorem fresh_of_breakdown (hr : r.Checked) (hflow : Flow.analyze h r = .ok flow)
    (hstart : start < flow.routine.size)
    (hbreak : ((make flow minSize maxSize).attemptAt start : Answer ε Attempt) = Answer.breakdown) :
    (∀ before n, start = before + 1 → flow.routine.code[before]? ≠ some (.line n)) ∧
      flow.reachable start := by
  obtain ⟨rfl, hframes, -⟩ := Flow.analyze_onward hr hflow
  unfold attemptAt at hbreak
  split at hbreak
  · cases hbreak
  next hline =>
  refine ⟨fun before n hsucc hbefore => hline (followsLine_iff.2 ⟨before, n, hsucc, hbefore⟩), ?_⟩
  rw [Flow.reachable, ← Flow.frame?_natCast]
  obtain ⟨frame, hframe⟩ : ∃ frame, flow.frame? start = some frame :=
    ⟨_, by rw [Flow.frame?_natCast]; exact Array.getElem?_eq_getElem (hframes ▸ hstart)⟩
  rw [hframe]
  cases frame with
  | some f => rfl
  | none =>
    -- a range that no path leads to is refused
    have hrefused (stop : Int) : ∃ e, flow.footprint start stop = .error (.refused e) := by
      unfold Flow.footprint
      rw [hframe]
      change ∃ e, (Answer.require flow.routine.code[(start : Int).toNat]? >>= fun _ => _) = _
      rw [Int.toNat_natCast, Array.getElem?_eq_getElem hstart]
      exact ⟨_, rfl⟩
    obtain ⟨e, he⟩ := hrefused ((make flow minSize maxSize).farthest start)
    dsimp only at hbreak
    rw [show (make flow minSize maxSize).flow.footprint start _ = _ from he] at hbreak
    split at hbreak <;> cases hbreak

/-- A survey is steady where its bounds stay in the words. -/
theorem steady_of_not_overruns (hr : r.Checked) (hflow : Flow.analyze h r = .ok flow)
    (hsize : (r.size : Int) < 0x4000000000000000) (hmin : r.size + 1 + max minSize 1 ≤ Word.max)
    (hlow : Word.min ≤ maxSize) (hnone : ∀ start, ¬ flow.Overruns minSize maxSize start) :
    (make flow minSize maxSize).Steady := by
  obtain ⟨rfl, -⟩ := Flow.analyze_onward hr hflow
  refine ⟨fun ε start hfits => ?_, Int.le_max_right _ _, hmin⟩
  replace hfits : start + max minSize 1 ≤ flow.routine.size := hfits
  suffices h : ∃ a, ((make flow minSize maxSize).attemptAt start : Answer ε Attempt) = .ok a from
    h.imp fun a ha => ⟨ha, cutAt_of_attempt ha⟩
  by_cases hle : start + maxSize - 1 ≤ Word.max
  · exact exists_attempt_of_le_max ε hr hflow hsize hlow (by omega) hle
  · cases ha : ((make flow minSize maxSize).attemptAt start : Answer ε Attempt) with
    | ok a => exact ⟨a, rfl⟩
    | error stop =>
      obtain rfl := attemptAt_eq_error ha
      obtain ⟨hfresh, hreached⟩ := fresh_of_breakdown hr hflow (by omega) ha
      exact absurd ⟨hfits, hfresh, hreached, by omega⟩ (hnone start)

/-- Two surveys of which the first finds what the second finds, unless it breaks down. -/
structure Trails (s s' : Survey) : Prop where
  size : s.size = s'.size
  minSize : s.minSize = s'.minSize
  attempts : ∀ (ε : Type) (start : Nat) (a : Attempt), start ≤ s.size →
    (s.attemptAt start : Answer ε Attempt) = .ok a →
      ∃ a', (s'.attemptAt start : Answer ε Attempt) = .ok a' ∧ a'.cut? = a.cut?

theorem trails_make (hr : r.Checked) (hflow : Flow.analyze h r = .ok flow)
    (hsize : (r.size : Int) < 0x4000000000000000) (hmin : Word.min ≤ maxSize)
    (hmax : maxSize ≤ Word.max) :
    Trails (make flow minSize maxSize) (make flow minSize (min maxSize r.size)) := by
  have hrefl := (Flow.analyze_onward hr hflow).1
  refine ⟨rfl, rfl, fun ε start a hstart ha => ?_⟩
  subst hrefl
  replace hstart : start ≤ flow.routine.size := hstart
  by_cases hle : start + maxSize - 1 ≤ Word.max
  · rw [attemptAt_clamped hsize hstart hle] at ha
    exact ⟨a, ha, rfl⟩
  · obtain ⟨a', ha'⟩ : ∃ a', ((make flow minSize (min maxSize flow.routine.size)).attemptAt start :
        Answer ε Attempt) = .ok a' :=
      exists_attempt_of_le_max ε hr hflow hsize (by unfold Word.min at *; omega) hstart
        (by unfold Word.max; omega)
    -- a cut would make the start an overrun, and the first survey would have broken down there
    have hnone {maxSize' : Int} {b : Attempt}
        (hb : ((make flow minSize maxSize').attemptAt start : Answer ε Attempt) = .ok b) :
        b.cut? = none := by
      cases b with
      | tooShort => rfl
      | skipped => rfl
      | found c =>
        obtain ⟨hfits, hfresh, hreached⟩ :=
          attemptAt_found (by unfold Word.max; omega) hstart hb
        rw [attemptAt_of_overruns hsize hmax ⟨hfits, hfresh, hreached, by omega⟩] at ha
        cases ha
    exact ⟨a', ha', (hnone ha').trans (hnone ha).symm⟩

end Survey

namespace Cursor

variable {ε : Type} {s s' : Survey}

/-- A search goes on behind a start without a cut. -/
theorem advance_passes {notes : Array Note} {start : Int}
    (hfits : Word.wrap (start + s.minSize) ≤ s.size) (hin : ¬ s.size < start) {a : Attempt}
    (ha : (s.attemptAt start.toNat : Answer ε Attempt) = .ok a) (hcut : a.cut? = none) :
    ∃ notes', (advance s notes start : Array Note × Answer ε (Int × Option Cut)) =
      advance s notes' (start + 1) := by
  rw [advance, if_pos hfits, if_neg hin, ha]
  cases a with
  | found => cases hcut
  | tooShort => exact ⟨_, rfl⟩
  | skipped => exact ⟨_, rfl⟩

/-! ### Answers before a breakdown -/

theorem advance_of_trails (hs : s.Trails s') {notes : Array Note} {start : Int} (hstart : 0 ≤ start)
    {found : Int × Option Cut}
    (h : (advance s notes start : Array Note × Answer ε (Int × Option Cut)).2 = .ok found)
    (notes' : Array Note) :
    (advance s' notes' start : Array Note × Answer ε (Int × Option Cut)).2 = .ok found ∧
      0 ≤ found.1 := by
  -- where the first survey finds no cut, the second finds none either
  have hpass (notes' : Array Note) {start : Int} (hstart : 0 ≤ start)
      (hfits : Word.wrap (start + s.minSize) ≤ s.size) (hin : ¬ s.size < start) {a : Attempt}
      (ha : (s.attemptAt start.toNat : Answer ε Attempt) = .ok a) (hcut : a.cut? = none) :
      ∃ notes'', (advance s' notes' start : Array Note × Answer ε (Int × Option Cut)) =
        advance s' notes'' (start + 1) := by
    obtain ⟨a', ha', hcut'⟩ := hs.attempts ε start.toNat _ (by omega) ha
    rw [hs.size, hs.minSize] at hfits
    exact advance_passes hfits (hs.size ▸ hin) ha' (hcut'.trans hcut)
  fun_induction advance s notes start generalizing notes' with
  | case1 => cases h
  | case2 => cases h
  | case3 notes start hfits hin c hfound =>
    obtain ⟨a', ha', hcut⟩ := hs.attempts ε start.toNat _ (by omega) hfound
    obtain rfl := Except.ok.inj h
    rw [advance, ← hs.size, ← hs.minSize, if_pos hfits, if_neg hin, ha', Attempt.cut?_eq_some hcut]
    exact ⟨rfl, hstart⟩
  | case4 notes start hfits hin hshort ih =>
    obtain ⟨notes'', hnext⟩ := hpass notes' hstart hfits hin hshort rfl
    rw [hnext]
    exact ih (by omega) h _
  | case5 notes start hfits hin reason stop hskipped ih =>
    obtain ⟨notes'', hnext⟩ := hpass notes' hstart hfits hin hskipped rfl
    rw [hnext]
    exact ih (by omega) h _
  | case6 notes start hfits =>
    obtain rfl := Except.ok.inj h
    rw [advance, ← hs.size, ← hs.minSize, if_neg hfits]
    exact ⟨rfl, Int.natCast_nonneg _⟩

theorem peek_of_trails (hs : s.Trails s') {c c' : Cursor} (hc : -1 ≤ c.position) {next : Option Cut}
    (h : (c.peek s : Array Note × Answer ε (Option Cut × Cursor)).2 = .ok (next, c')) :
    (c.peek s' : Array Note × Answer ε (Option Cut × Cursor)).2 = .ok (next, c') ∧
      -1 ≤ c'.position := by
  unfold peek at h ⊢
  -- a cursor that has looked ahead answers from memory
  cases hpeeked : c.peeked with
  | some cut =>
    rw [hpeeked] at h
    obtain ⟨rfl, rfl⟩ := Prod.mk.inj (Except.ok.inj h)
    exact ⟨rfl, hc⟩
  | none =>
    rw [hpeeked] at h
    dsimp only at h ⊢
    have hadvance := @advance_of_trails ε s s' hs #[] (c.position + 1) (by omega)
    cases hfound : (advance s #[] (c.position + 1) : Array Note × Answer ε (Int × Option Cut)) with
    | mk notes answer =>
      rw [hfound] at h hadvance
      cases answer with
      | error stop => cases h
      | ok found =>
        obtain ⟨hsame, hpos⟩ := hadvance rfl #[]
        obtain ⟨rfl, rfl⟩ := Prod.mk.inj (Except.ok.inj h)
        cases hfound' :
          (advance s' #[] (c.position + 1) : Array Note × Answer ε (Int × Option Cut)) with
        | mk notes' answer' =>
          rw [hfound'] at hsame
          obtain rfl : answer' = _ := hsame
          exact ⟨rfl, by dsimp only; omega⟩

theorem next_of_trails (hs : s.Trails s') {c c' : Cursor} (hc : -1 ≤ c.position) {next : Option Cut}
    (h : (c.next s : Array Note × Answer ε (Option Cut × Cursor)).2 = .ok (next, c')) :
    (c.next s' : Array Note × Answer ε (Option Cut × Cursor)).2 = .ok (next, c') ∧
      -1 ≤ c'.position := by
  have hpeek := @peek_of_trails ε s s' hs c
  unfold Cursor.next at h ⊢
  generalize (c.peek s : Array Note × Answer ε (Option Cut × Cursor)) = answer at h hpeek
  generalize (c.peek s' : Array Note × Answer ε (Option Cut × Cursor)) = answer' at hpeek ⊢
  obtain ⟨notes, stop | ⟨next', c''⟩⟩ := answer
  · cases h
  · obtain ⟨hsame, hpos⟩ := hpeek hc rfl
    obtain ⟨notes', result⟩ := answer'
    obtain rfl : result = _ := hsame
    obtain ⟨rfl, rfl⟩ := Prod.mk.inj (Except.ok.inj h)
    exact ⟨rfl, hpos⟩

/-- **Whatever a cursor answers before it breaks down, one over the other survey answers too.** -/
theorem play_of_trails (hs : s.Trails s') (moves : List Move) {c : Cursor} (hc : -1 ≤ c.position)
    {answers : List (Option Cut)}
    (h : (c.play s moves : Answer ε (List (Option Cut))) = .ok answers) :
    (c.play s' moves : Answer ε (List (Option Cut))) = .ok answers := by
  induction moves generalizing c answers with
  | nil => exact h
  | cons move moves ih =>
    cases move with
    | peek =>
      refine Answer.bind_ok_mono (fun found hfound => (peek_of_trails hs hc hfound).1) ?_ h
      intro found answers hfound
      exact Answer.bind_ok_mono (fun rest => ih (peek_of_trails hs hc hfound).2) fun _ _ _ => id
    | next =>
      refine Answer.bind_ok_mono (fun found hfound => (next_of_trails hs hc hfound).1) ?_ h
      intro found answers hfound
      exact Answer.bind_ok_mono (fun rest => ih (next_of_trails hs hc hfound).2) fun _ _ _ => id
    | reset => exact ih (by decide) h

/-! ### Breakdowns -/

/-- A search towards a start at which the survey breaks down finds a cut before it, or breaks
down. -/
theorem advance_toward {w start : Nat} (hmin : 1 ≤ s.minSize)
    (hroom : s.size + 1 + s.minSize ≤ Word.max) (hfits : w + s.minSize ≤ s.size)
    (hfault : (s.attemptAt w : Answer ε Attempt) = Answer.breakdown) (hstart : start ≤ w)
    (notes : Array Note) :
    (advance s notes start : Array Note × Answer ε (Int × Option Cut)).2 = Answer.breakdown ∨
      ∃ (position : Nat) (cut : Cut), start ≤ position ∧ position < w ∧
        (advance s notes start : Array Note × Answer ε (Int × Option Cut)).2 =
          .ok (position, some cut) := by
  -- on the number of starts up to the breakdown
  induction hn : w - start generalizing start notes with
  | zero =>
    obtain rfl : start = w := by omega
    rw [advance, Word.wrap_eq_self (by unfold Word.min; omega) (by omega), if_pos hfits,
      if_neg (by omega), Int.toNat_natCast, hfault]
    exact .inl rfl
  | succ n ih =>
    have hfits' : Word.wrap (start + s.minSize) ≤ s.size := by
      rw [Word.wrap_eq_self (by unfold Word.min; omega) (by omega)]
      omega
    have hin : ¬ (s.size : Int) < start := by omega
    cases ha : (s.attemptAt start : Answer ε Attempt) with
    | error stop =>
      rw [advance, if_pos hfits', if_neg hin, Int.toNat_natCast, ha, Survey.attemptAt_eq_error ha]
      exact .inl rfl
    | ok a =>
      cases hcut : a.cut? with
      | none =>
        obtain ⟨notes', hnext⟩ := @advance_passes ε s notes start hfits' hin a
          ((Int.toNat_natCast start).symm ▸ ha) hcut
        rw [hnext]
        refine (@ih (start + 1) (by omega) notes' (by omega)).imp_right ?_
        rintro ⟨position, cut, hle, hlt, hfound⟩
        exact ⟨position, cut, by omega, hlt, hfound⟩
      | some cut =>
        refine .inr ⟨start, cut, Nat.le_refl _, by omega, ?_⟩
        rw [advance, if_pos hfits', if_neg hin, Int.toNat_natCast, ha, Attempt.cut?_eq_some hcut]

/-- Passing the next cut is a search from the next start on. -/
theorem next_fresh (start : Int) :
    ((⟨start - 1, none⟩ : Cursor).next s : Array Note × Answer ε (Option Cut × Cursor)).2 =
      (advance s #[] start).2.map fun found => (found.2, ⟨found.1, none⟩) := by
  unfold Cursor.next Cursor.peek
  dsimp only
  rw [Int.sub_add_cancel]
  obtain ⟨notes, stop | found⟩ :=
    (advance s #[] start : Array Note × Answer ε (Int × Option Cut)) <;> rfl

/-- **A cursor comes to the start at which the survey breaks down.** -/
theorem exists_play_eq_breakdown {w start : Nat} (hmin : 1 ≤ s.minSize)
    (hroom : s.size + 1 + s.minSize ≤ Word.max) (hfits : w + s.minSize ≤ s.size)
    (hfault : (s.attemptAt w : Answer ε Attempt) = Answer.breakdown) (hstart : start ≤ w) :
    ∃ count, ((⟨start - 1, none⟩ : Cursor).play s (List.replicate count .next) :
      Answer ε (List (Option Cut))) = Answer.breakdown := by
  -- each cut that is found on the way brings the cursor closer
  induction hn : w - start using Nat.strong_induction_on generalizing start with
  | _ n ih =>
    have hnext := @next_fresh ε s start
    rcases advance_toward hmin hroom hfits hfault hstart #[] with
      hbreak | ⟨position, cut, hle, hlt, hfound⟩
    · refine ⟨1, ?_⟩
      rw [List.replicate_succ, play, hnext, hbreak]
      rfl
    · obtain ⟨count, hcount⟩ := @ih (w - (position + 1)) (by omega) (position + 1) (by omega) rfl
      rw [Int.natCast_add, Int.natCast_one, Int.add_sub_cancel] at hcount
      refine ⟨count + 1, ?_⟩
      rw [List.replicate_succ, play, hnext, hfound]
      change (play s ⟨position, none⟩ _ >>= fun _ => _) = _
      rw [hcount]
      rfl

/-- A search that goes on behind the end breaks down when the sum of the end and the least size is
not a word. -/
theorem play_twice_eq_breakdown (hsize : s.size < s.minSize) (hmin : s.minSize ≤ Word.max)
    (hroom : Word.max < s.size + 1 + s.minSize) (hsmall : (s.size : Int) < 0x4000000000000000) :
    (atStart.play s (List.replicate 2 .next) : Answer ε (List (Option Cut))) =
      Answer.breakdown := by
  have hfirst := @next_fresh ε s 0
  have hsecond := @next_fresh ε s (s.size + 1)
  rw [advance, Word.wrap_eq_self (by unfold Word.min; omega) (by omega),
    if_neg (by omega)] at hfirst
  rw [advance, if_pos (by unfold Word.wrap; unfold Word.max at *; omega), if_pos (by omega),
    Int.add_sub_cancel] at hsecond
  rw [List.replicate_succ, play, show atStart = ⟨0 - 1, none⟩ from rfl, hfirst]
  change (play s ⟨s.size, none⟩ (List.replicate 1 .next) >>= fun _ => _) = _
  rw [List.replicate_succ, play, hsecond]
  rfl

end Cursor

namespace Survey

variable {ε : Type} {h : Hierarchy} {r : Routine} {flow : Flow} {minSize maxSize : Int}

/-- A cursor breaks down where one of the bounds leads past the largest word. -/
theorem exists_breakdown (hsize : (flow.routine.size : Int) < 0x4000000000000000)
    (hmin : minSize ≤ Word.max) (hhigh : maxSize ≤ Word.max)
    (hbeyond : Word.max < flow.routine.size + 1 + max minSize 1 ∨
      ∃ start, flow.Overruns minSize maxSize start) :
    ∃ count, (Cursor.atStart.play (make flow minSize maxSize) (List.replicate count .next) :
      Answer ε (List (Option Cut))) = Answer.breakdown := by
  by_cases hroom : flow.routine.size + 1 + max minSize 1 ≤ Word.max
  · -- the least size stays in the words, so it is the greatest size that does not
    obtain ⟨start, hover⟩ := hbeyond.resolve_left (Int.not_lt.2 hroom)
    exact @Cursor.exists_play_eq_breakdown ε (make flow minSize maxSize) start 0
      (Int.le_max_right _ _) hroom hover.fits (attemptAt_of_overruns hsize hhigh hover)
      (Nat.zero_le _)
  · refine ⟨2, Cursor.play_twice_eq_breakdown ?_ ?_ (Int.not_le.1 hroom) hsize⟩
    · change (flow.routine.size : Int) < max minSize 1
      unfold Word.max at hroom
      omega
    · change max minSize 1 ≤ Word.max
      unfold Word.max at *
      omega

/-- A survey whose greatest size is cut down to the size of the routine is steady. -/
theorem steady_clamped (hr : r.Checked) (hflow : Flow.analyze h r = .ok flow)
    (hsize : (r.size : Int) < 0x4000000000000000) (hmin : r.size + 1 + max minSize 1 ≤ Word.max)
    (hlow : Word.min ≤ maxSize) : (make flow minSize (min maxSize r.size)).Steady := by
  obtain ⟨rfl, -⟩ := Flow.analyze_onward hr hflow
  refine steady_of_not_overruns hr hflow hsize hmin (by unfold Word.min at *; omega) ?_
  intro start hover
  have hfits := hover.fits
  have hbeyond := hover.beyond
  unfold Word.max at hbeyond
  omega

/-- Elsewhere a cursor answers from the list of the survey with the smaller bound. -/
theorem play_of_not_overruns (hr : r.Checked) (hflow : Flow.analyze h r = .ok flow)
    (hsize : (r.size : Int) < 0x4000000000000000) (hmin : r.size + 1 + max minSize 1 ≤ Word.max)
    (hlow : Word.min ≤ maxSize) (hhigh : maxSize ≤ Word.max)
    (hnone : ∀ start, ¬ flow.Overruns minSize maxSize start) (moves : List Move) :
    (Cursor.atStart.play (make flow minSize maxSize) moves : Answer ε (List (Option Cut))) =
      .ok (Move.answers ((make flow minSize (min maxSize r.size)).upcoming 0) 0 moves) := by
  have hplay := Cursor.stands_atStart.play (ε := ε) (k := 0)
    (steady_of_not_overruns hr hflow hsize hmin hlow hnone) moves
  have hplay' := Cursor.stands_atStart.play (ε := ε) (k := 0)
    (steady_clamped hr hflow hsize hmin hlow) moves
  have hsame := Cursor.play_of_trails (trails_make hr hflow hsize hlow hhigh) moves
    (by decide) hplay
  rw [hplay]
  exact hsame.symm.trans hplay'

end Survey

/-- **When a cursor breaks down.** With any two words for bounds, a cursor over the survey of an
analyzed routine breaks down, if the next cut is asked for often enough, exactly if the least size
leads past the largest word behind the end of the routine or the greatest size does so from a start
that is tried. If it does not, then whatever is asked of it, it answers from one list, and so does
one whose greatest size is cut down to the size of the routine. In any case what it answers before
is what that one answers. -/
theorem Outline.cursor_breaks_iff (o : Outline) (ε : Type) {r : Routine} (hr : r.Made) {flow : Flow}
    (hflow : Flow.analyze o.hierarchy r = .ok flow) (hsize : (r.size : Int) < 0x4000000000000000)
    {minSize maxSize : Int} (hmin : minSize ≤ Word.max) (hlow : Word.min ≤ maxSize)
    (hhigh : maxSize ≤ Word.max) :
    ∃ s s' l, o.survey r minSize maxSize = .ok s ∧
      o.survey r minSize (min maxSize r.size) = .ok s' ∧
      ((∃ count, (Cursor.atStart.play s (List.replicate count .next) :
          Answer ε (List (Option Cut))) = Answer.breakdown) ↔
        Word.max < r.size + 1 + max minSize 1 ∨ ∃ start, flow.Overruns minSize maxSize start) ∧
      ((∀ count, (Cursor.atStart.play s (List.replicate count .next) :
          Answer ε (List (Option Cut))) ≠ Answer.breakdown) →
        ∀ moves, (Cursor.atStart.play s moves : Answer ε (List (Option Cut))) =
            .ok (Move.answers l 0 moves) ∧
          (Cursor.atStart.play s' moves : Answer ε (List (Option Cut))) =
            .ok (Move.answers l 0 moves)) ∧
      (∀ moves answers, (Cursor.atStart.play s moves : Answer ε (List (Option Cut))) = .ok answers →
        (Cursor.atStart.play s' moves : Answer ε (List (Option Cut))) = .ok answers) ∧
      (Survey.Roomy r minSize (min maxSize r.size) →
        flow.IsListing minSize (min maxSize r.size) l) := by
  have hchecked := hr.checked
  obtain ⟨rfl, -⟩ := Flow.analyze_onward hchecked hflow
  have hsurvey (maxSize : Int) :
      o.survey flow.routine minSize maxSize = .ok (Survey.make flow minSize maxSize) := by
    rw [Outline.survey, hflow]
    rfl
  -- the condition breaks a cursor down, and without it the cursor goes on for ever
  have hbreaks := Survey.exists_breakdown (ε := ε) hsize hmin hhigh
  have hplay (h : ¬ (Word.max < flow.routine.size + 1 + max minSize 1 ∨
      ∃ start, flow.Overruns minSize maxSize start)) :=
    Survey.play_of_not_overruns (ε := ε) hchecked hflow hsize (Int.not_lt.1 fun hlt => h (.inl hlt))
      hlow hhigh fun start hover => h (.inr ⟨start, hover⟩)
  have hsame (moves : List Move) (answers : List (Option Cut))
      (h : (Cursor.atStart.play (Survey.make flow minSize maxSize) moves :
        Answer ε (List (Option Cut))) = .ok answers) :=
    Cursor.play_of_trails (Survey.trails_make hchecked hflow hsize hlow hhigh) moves (by decide) h
  refine ⟨_, _, _, hsurvey _, hsurvey _, ⟨?_, hbreaks⟩, fun h moves => ?_, hsame,
    Survey.isListing_upcoming hchecked hflow⟩
  · rintro ⟨count, hcount⟩
    refine Classical.byContradiction fun hnone => ?_
    rw [hplay hnone] at hcount
    cases hcount
  · have hmoves := hplay (fun hbeyond => (hbreaks hbeyond).elim h) moves
    exact ⟨hmoves, hsame moves _ hmoves⟩

/-- With nine instructions a greatest size of seven less than the largest word is still as good as
one of nine. -/
theorem Outline.cursor_breaks_iff_countdown :
    ∃ r flow s l, Routine.make Flow.countdown = .ok r ∧ Flow.analyze .flat r = .ok flow ∧
      r.size = 9 ∧ ({} : Outline).survey r 1 (Word.max - 7) = .ok s ∧ flow.IsListing 1 9 l ∧
      ∀ moves, (Cursor.atStart.play s moves : Answer Empty (List (Option Cut))) =
        .ok (Move.answers l 0 moves) := by
  have hrun : (Routine.make Flow.countdown).toOption.any fun r => decide (r.size = 9) &&
      (Flow.analyze .flat r).toOption.any fun _ => true := by
    decide +kernel
  obtain ⟨r, hr, hrun⟩ := exists_ok_of_any hrun
  rw [Bool.and_eq_true, decide_eq_true_iff] at hrun
  obtain ⟨flow, hflow, -⟩ := exists_ok_of_any hrun.2
  -- the bound is so large that only starts behind the routine lead past the largest word
  have hclamp : min (Word.max - 7) (r.size : Int) = 9 := by
    rw [hrun.1]
    decide
  obtain ⟨s, s', l, hs, -, hbreaks, hplay, -, hlisting⟩ :=
    @Outline.cursor_breaks_iff {} Empty r ⟨_, hr⟩ flow hflow (by rw [hrun.1]; decide) 1
      (Word.max - 7) (by decide) (by decide) (by decide)
  rw [hclamp] at hlisting
  refine ⟨r, flow, s, l, hr, hflow, hrun.1, hs,
    hlisting ⟨by rw [hrun.1]; decide, by decide, by decide, by decide⟩,
    fun moves => (hplay ?_ moves).1⟩
  intro count hcount
  have hroutine := (Flow.analyze_onward (h := .flat) (Routine.Made.checked ⟨_, hr⟩) hflow).1
  rcases hbreaks.1 ⟨count, hcount⟩ with hmin | ⟨start, hover⟩
  · rw [hrun.1] at hmin
    exact absurd hmin (by decide)
  · have hfits := hover.fits
    have hbeyond := hover.beyond
    rw [hroutine, hrun.1] at hfits
    omega

/-- Three operations that do nothing. -/
def threeNops : RoutineParts where
  owner := "T"
  name := "f"
  descriptor := "()V"
  access := .static
  code := #[some (.plain .nop), some (.plain .nop), some (.plain .nop), some (.plain .returnVoid)]
  blocks := []
  maxLocals := 0
  maxStack := 0

/-- The largest word is too large for either bound: a cursor over `threeNops` breaks down, although
one with the size of the routine for its greatest size always answers. -/
theorem Outline.cursor_breaks_threeNops :
    ∃ r s s' s'', Routine.make threeNops = .ok r ∧ r.size = 4 ∧
      ({} : Outline).survey r 1 Word.max = .ok s ∧ ({} : Outline).survey r 1 4 = .ok s' ∧
      ({} : Outline).survey r Word.max 4 = .ok s'' ∧
      (∃ count, (Cursor.atStart.play s (List.replicate count .next) :
        Answer Empty (List (Option Cut))) = Answer.breakdown) ∧
      (∀ moves, ∃ answers,
        (Cursor.atStart.play s' moves : Answer Empty (List (Option Cut))) = .ok answers) ∧
      ∃ count, (Cursor.atStart.play s'' (List.replicate count .next) :
        Answer Empty (List (Option Cut))) = Answer.breakdown := by
  have hrun : (Routine.make threeNops).toOption.any fun r => decide (r.size = 4) &&
      decide (r.code[1]? = some (.plain .nop)) &&
        (Flow.analyze .flat r).toOption.any fun flow => flow.reachable 2 := by
    decide +kernel
  obtain ⟨r, hr, hrun⟩ := exists_ok_of_any hrun
  rw [Bool.and_eq_true, Bool.and_eq_true, decide_eq_true_iff, decide_eq_true_iff] at hrun
  obtain ⟨⟨hfour, hnop⟩, hrun⟩ := hrun
  obtain ⟨flow, hflow, hreached⟩ := exists_ok_of_any hrun
  have hchecked := Routine.Made.checked ⟨_, hr⟩
  obtain ⟨rfl, -⟩ := Flow.analyze_onward hchecked hflow
  have hsurvey (minSize maxSize : Int) : ({} : Outline).survey flow.routine minSize maxSize =
      .ok (Survey.make flow minSize maxSize) := by
    rw [Outline.survey, hflow]
    rfl
  have hsize : (flow.routine.size : Int) < 0x4000000000000000 := by
    rw [hfour]
    decide
  -- from the third instruction on the greatest size leads past the largest word
  have hover : flow.Overruns 1 Word.max 2 := by
    refine ⟨by rw [hfour]; decide, fun before n hsucc hline => ?_, hreached, by decide⟩
    obtain rfl := Nat.succ.inj hsucc
    rw [hnop] at hline
    cases hline
  have hsteady : (Survey.make flow 1 4).Steady :=
    Survey.steady_make hchecked hflow ⟨hsize, by decide, by decide, by decide⟩
  exact ⟨flow.routine, _, _, _, hr, hfour, hsurvey _ _, hsurvey _ _, hsurvey _ _,
    Survey.exists_breakdown hsize (by decide) (by decide) (.inr ⟨2, hover⟩),
    fun moves => ⟨_, Cursor.stands_atStart.play (k := 0) hsteady moves⟩,
    Survey.exists_breakdown hsize (by decide) (by decide) (.inl (by rw [hfour]; decide))⟩

end Outliner
