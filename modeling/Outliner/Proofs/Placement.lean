import Outliner.Outline
import Outliner.Proofs.Slots

/-!
# Where locals live in an extracted routine

The plan of a cut (`SlotPlan.ofCut`) gives every slot that the range touches a place of its own.
This module says what it promises. Each slot has the cells set aside for it (`SlotPlan.room`), which
are enough for the value that arrives in it and for every access of the range, and the cells of
different slots do not overlap (`SlotPlan.Places`). A read local lives where it arrives, unless the
range stores something wider there; then the plan lists a copy to a new place.

The read locals are placed first, while arguments are still to arrive. What carries the proof is
that a place taken so far lies below the arrivals to come or above all of them (`SlotPlan.Placing`).
-/

namespace Outliner

/-- The arguments after the consumed values are the read locals. -/
theorem Cut.getElem?_arguments (c : Cut) (k : Nat) :
    c.arguments[c.consumed.length + k]? = (c.read.toList[k]?).map (·.2) := by
  rw [Cut.arguments, List.getElem?_append_right (by omega), Nat.add_sub_cancel_left,
    List.getElem?_map]

namespace SlotPlan

/-! ### Arrivals -/

theorem arrivals_append (n : Nat) (ts us : List JType) :
    arrivals n (ts ++ us) =
      ((arrivals n ts).1 ++ (arrivals (arrivals n ts).2 us).1,
        (arrivals (arrivals n ts).2 us).2) := by
  induction ts generalizing n with
  | nil => rfl
  | cons t rest ih => simp [arrivals, ih]

theorem le_arrivals (n : Nat) (ts : List JType) : n ≤ (arrivals n ts).2 := by
  induction ts generalizing n with
  | nil => exact Nat.le_refl n
  | cons t rest ih => exact Nat.le_trans (Nat.le_add_right n t.size) (ih _)

@[simp] theorem length_arrivals (n : Nat) (ts : List JType) :
    (arrivals n ts).1.length = ts.length := by
  induction ts generalizing n with
  | nil => rfl
  | cons t rest ih => simp [arrivals, ih]

/-- An argument arrives after those before it. -/
theorem getElem?_arrivals {n k : Nat} {ts : List JType} (hk : k < ts.length) :
    (arrivals n ts).1[k]? = some (n + JType.sizeOfAll (ts.take k)) := by
  induction ts generalizing n k with
  | nil => cases hk
  | cons t rest ih =>
    cases k with
    | zero => rfl
    | succ k =>
      have hrest := @ih (n + t.size) k (Nat.lt_of_succ_lt_succ hk)
      rw [Nat.add_assoc] at hrest
      exact hrest

/-- An argument arrives between the first slot and the last. -/
theorem arrivals_bounds {n k a : Nat} {ts : List JType} {t : JType}
    (ha : (arrivals n ts).1[k]? = some a) (ht : ts[k]? = some t) :
    n ≤ a ∧ a + t.size ≤ (arrivals n ts).2 := by
  induction ts generalizing n k with
  | nil => cases ht
  | cons u rest ih =>
    cases k with
    | zero =>
      obtain rfl : n = a := by simpa [arrivals] using ha
      obtain rfl : u = t := by simpa using ht
      exact ⟨Nat.le_refl _, le_arrivals _ _⟩
    | succ k =>
      obtain ⟨hlow, hhigh⟩ := @ih (n + u.size) k ha ht
      exact ⟨by omega, hhigh⟩

/-! ### Rooms -/

/-- The number of cells set aside for a slot. -/
def room (c : Cut) (widths : SlotMap Nat) (slot : Int) : Nat :=
  max ((widths.get? slot).getD 0) (((c.read.get? slot).map JType.size).getD 0)

/-- The places taken do not overlap. -/
def Apart (room : Int → Nat) (p : SlotPlan) : Prop :=
  ∀ s s' k k', p.remap.get? s = some k → p.remap.get? s' = some k' → s ≠ s' →
    k + room s ≤ k' ∨ k' + room s' ≤ k

/-- **While the read locals are placed**, and the next one arrives at `n`, a place taken so far lies
below the arrivals to come or from `top` on, where they end. -/
structure Placing (room : Int → Nat) (arriving : Int → Nat → Prop) (top n : Nat) (p : SlotPlan) :
    Prop where
  top_le : top ≤ p.next
  side : ∀ s k, p.remap.get? s = some k → k + room s ≤ n ∨ (top ≤ k ∧ k + room s ≤ p.next)
  apart : p.Apart room
  /-- A place that is not new is one where the slot arrives. -/
  fresh : ∀ s k, p.remap.get? s = some k → top ≤ k ∨ arriving s k
  /-- A copy goes to a new place. -/
  copies : ∀ e ∈ p.copies, top ≤ e.2.2 ∧ e.2.2 < p.next
  nodup : (p.copies.map (·.2.2)).Nodup

variable {c : Cut} {widths : SlotMap Nat} {p : SlotPlan} {top n : Nat} {slot : Int} {t : JType}

theorem Apart.insert {room : Int → Nat} (h : p.Apart room) {k : Nat}
    (hk : ∀ s k', p.remap.get? s = some k' → k' + room s ≤ k ∨ k + room slot ≤ k') (next : Nat)
    (copies : List (JType × Nat × Nat)) : Apart room ⟨next, p.remap.insert slot k, copies⟩ := by
  intro s s' q q' hs hs' hne
  simp only [SlotMap.get?_insert] at hs hs'
  split at hs <;> split at hs'
  · next h1 h2 => exact absurd (h1.symm.trans h2) hne
  · next h1 _ =>
    obtain rfl := Option.some.inj hs
    subst h1
    exact (hk s' q' hs').symm
  · next _ h2 =>
    obtain rfl := Option.some.inj hs'
    subst h2
    exact hk s q hs
  · exact h s s' q q' hs hs' hne

/-- What became of a read local: it stays where it arrives, or is copied. -/
def Settles (p : SlotPlan) (slot : Int) (t : JType) (arrival : Nat) : Prop :=
  ∃ k, p.remap.get? slot = some k ∧ (k = arrival ∨ (t, arrival, k) ∈ p.copies)

/-- **A slot may be given a new place**, behind all that are taken. -/
theorem Placing.append {room : Int → Nat} {arriving : Int → Nat → Prop} {width n' : Nat}
    (h : Placing room arriving top n p) (hroom : room slot = width) (hn : n ≤ n') (hle : n' ≤ top) :
    Placing room arriving top n'
      { p with next := p.next + width, remap := p.remap.insert slot p.next } := by
  have htop := h.top_le
  refine ⟨by dsimp only; omega, fun s k hs => ?_, ?_, fun s k hs => ?_, fun e he => ?_, h.nodup⟩
  · simp only [SlotMap.get?_insert] at hs
    dsimp only
    split at hs
    · next heq =>
      subst heq
      obtain rfl := Option.some.inj hs
      exact .inr ⟨htop, by omega⟩
    · rcases h.side s k hs with hk | hk
      · exact .inl (by omega)
      · exact .inr (by omega)
  · refine h.apart.insert (fun s k hs => .inl ?_) _ _
    rcases h.side s k hs with hk | hk <;> omega
  · rw [SlotMap.get?_insert] at hs
    split at hs
    · obtain rfl := Option.some.inj hs
      exact .inl htop
    · exact h.fresh s k hs
  · obtain ⟨hlow, hhigh⟩ := h.copies e he
    exact ⟨hlow, by dsimp only; omega⟩

theorem Placing.placeRead {room : Int → Nat} {arriving : Int → Nat → Prop}
    (h : Placing room arriving top n p)
    (harriving : (widths.get? slot).getD 0 ≤ t.size → arriving slot n)
    (hroom : room slot = max ((widths.get? slot).getD 0) t.size) (hsize : 1 ≤ t.size)
    (hn : n + t.size ≤ top) :
    Placing room arriving top (n + t.size) (p.placeRead widths slot t n) ∧
      (p.placeRead widths slot t n).Settles slot t n := by
  have htop := h.top_le
  unfold SlotPlan.placeRead
  dsimp only
  split
  · -- the value stays where it arrives, on the lower side
    next hle =>
    refine ⟨⟨htop, fun s k hs => ?_, ?_, fun s k hs => ?_, h.copies, h.nodup⟩, n, by simp, .inl rfl⟩
    · simp only [SlotMap.get?_insert] at hs
      split at hs
      · next heq =>
        subst heq
        obtain rfl := Option.some.inj hs
        exact .inl (by omega)
      · rcases h.side s k hs with hk | hk
        · exact .inl (by omega)
        · exact .inr hk
    · refine h.apart.insert (fun s k hs => ?_) _ _
      rcases h.side s k hs with hk | hk
      · exact .inl hk
      · exact .inr (by omega)
    · rw [SlotMap.get?_insert] at hs
      split at hs
      · next heq =>
        obtain rfl := Option.some.inj hs
        exact .inr (heq ▸ harriving hle)
      · exact h.fresh s k hs
  · -- it is copied to a new place, which none of the other copies goes to
    next hlt =>
    have hwidth : room slot = (widths.get? slot).getD 0 := by omega
    have happend := h.append hwidth (Nat.le_add_right n t.size) hn
    refine ⟨⟨happend.top_le, happend.side, happend.apart, happend.fresh, fun e he => ?_, ?_⟩,
      p.next, by simp, .inr (by simp)⟩
    · rcases List.mem_append.1 he with he | he
      · exact happend.copies e he
      · obtain rfl := List.mem_singleton.1 he
        exact ⟨htop, by dsimp only; omega⟩
    · dsimp only
      rw [List.map_append, List.nodup_append]
      refine ⟨h.nodup, by simp, ?_⟩
      intro a ha b hb
      obtain ⟨e, he, rfl⟩ := List.mem_map.1 ha
      obtain rfl : b = p.next := by simpa using hb
      have := (h.copies e he).2
      omega

/-- Placing further slots keeps the places taken. -/
structure Extends (p q : SlotPlan) : Prop where
  remap : ∀ s k, p.remap.get? s = some k → q.remap.get? s = some k
  copies : p.copies ⊆ q.copies

theorem Extends.refl (p : SlotPlan) : p.Extends p := ⟨fun _ _ h => h, fun _ h => h⟩

theorem Extends.trans {q q' : SlotPlan} (h : p.Extends q) (h' : q.Extends q') : p.Extends q' :=
  ⟨fun s k hs => h'.remap s k (h.remap s k hs), fun _ he => h'.copies (h.copies he)⟩

theorem Settles.extend {q : SlotPlan} {arrival : Nat} (h : p.Settles slot t arrival)
    (hq : p.Extends q) : q.Settles slot t arrival := by
  obtain ⟨k, hk, hplace⟩ := h
  exact ⟨k, hq.remap slot k hk, hplace.imp_right fun he => hq.copies he⟩

theorem get?_insert_of_none (hnone : p.remap.get? slot = none) {s : Int} {k q : Nat}
    (hs : p.remap.get? s = some q) : (p.remap.insert slot k).get? s = some q := by
  rw [SlotMap.get?_insert, if_neg, hs]
  rintro rfl
  rw [hnone] at hs
  cases hs

theorem extends_placeRead (hnone : p.remap.get? slot = none) (arrival : Nat) :
    p.Extends (p.placeRead widths slot t arrival) := by
  unfold placeRead
  dsimp only
  split
  · exact ⟨fun _ _ => get?_insert_of_none hnone, fun _ he => he⟩
  · exact ⟨fun _ _ => get?_insert_of_none hnone, fun _ he => List.mem_append_left _ he⟩

theorem remap_placeRead_of_ne (arrival : Nat) {s : Int} (hne : slot ≠ s) :
    (p.placeRead widths slot t arrival).remap.get? s = p.remap.get? s := by
  unfold placeRead
  dsimp only
  split <;> simp [hne]

theorem copies_placeRead {arrival : Nat} {e : JType × Nat × Nat}
    (he : e ∈ (p.placeRead widths slot t arrival).copies) :
    e ∈ p.copies ∨ (e.1 = t ∧ e.2.1 = arrival ∧
      (p.placeRead widths slot t arrival).remap.get? slot = some e.2.2) := by
  unfold placeRead at he ⊢
  dsimp only at he ⊢
  split at he
  · exact .inl he
  · next hlt =>
    rcases List.mem_append.1 he with he | he
    · exact .inl he
    · obtain rfl := List.mem_singleton.1 he
      exact .inr ⟨rfl, rfl, by rw [if_neg hlt]; simp⟩

/-- The plan once the given locals, which arrive from `n` on, are placed. -/
def placeReads (widths : SlotMap Nat) (n : Nat) (l : List (Int × JType)) (p : SlotPlan) :
    SlotPlan :=
  (l.zip (arrivals n (l.map (·.2))).1).foldl (fun p e => p.placeRead widths e.1.1 e.1.2 e.2) p

theorem placing_placeReads {room : Int → Nat} {arriving : Int → Nat → Prop} {l : List (Int × JType)}
    (harriving : ∀ (k : Nat) (e : Int × JType) (a : Nat), l[k]? = some e →
      (arrivals n (l.map (·.2))).1[k]? = some a → (widths.get? e.1).getD 0 ≤ e.2.size →
      arriving e.1 a)
    (hnodup : (l.map (·.1)).Nodup) (hfree : ∀ e ∈ l, p.remap.get? e.1 = none)
    (hroom : ∀ e ∈ l, room e.1 = max ((widths.get? e.1).getD 0) e.2.size ∧ 1 ≤ e.2.size)
    (htop : top = (arrivals n (l.map (·.2))).2) (h : Placing room arriving top n p) :
    Placing room arriving top top (placeReads widths n l p) ∧ p.Extends (placeReads widths n l p) ∧
      (∀ (k : Nat) (e : Int × JType) (a : Nat), l[k]? = some e →
        (arrivals n (l.map (·.2))).1[k]? = some a → (placeReads widths n l p).Settles e.1 e.2 a) ∧
      ∀ e ∈ (placeReads widths n l p).copies, e ∈ p.copies ∨ ∃ (k : Nat) (s : Int),
        l[k]? = some (s, e.1) ∧ (arrivals n (l.map (·.2))).1[k]? = some e.2.1 ∧
        (placeReads widths n l p).remap.get? s = some e.2.2 := by
  induction l generalizing n p with
  | nil =>
    obtain rfl : top = n := htop
    exact ⟨h, .refl p, by simp, fun e he => .inl he⟩
  | cons first rest ih =>
    obtain ⟨s, t⟩ := first
    rw [List.map_cons, List.nodup_cons] at hnodup
    obtain ⟨hs, hsize⟩ := hroom (s, t) List.mem_cons_self
    -- the arrivals of the rest begin behind this one
    have hend : n + t.size ≤ top := htop ▸ le_arrivals (n + t.size) _
    obtain ⟨hplacing, hsettles⟩ := h.placeRead (harriving 0 (s, t) n rfl rfl) hs hsize hend
    have hext : p.Extends (p.placeRead widths s t n) :=
      extends_placeRead (hfree (s, t) List.mem_cons_self) n
    -- no slot is read twice, so the rest is still to be placed
    have hfree' (e : Int × JType) (he : e ∈ rest) :
        (p.placeRead widths s t n).remap.get? e.1 = none := by
      rw [remap_placeRead_of_ne]
      · exact hfree e (List.mem_cons_of_mem _ he)
      · rintro rfl
        exact hnodup.1 (List.mem_map.2 ⟨e, he, rfl⟩)
    obtain ⟨hall, hext', hsettle, hcopies⟩ := ih
      (fun k e a hk ha => harriving (k + 1) e a hk ha) hnodup.2 hfree'
      (fun e he => hroom e (List.mem_cons_of_mem _ he)) htop hplacing
    refine ⟨hall, hext.trans hext', fun k e a hk ha => ?_, fun e he => ?_⟩
    · cases k with
      | zero =>
        obtain rfl : (s, t) = e := by simpa using hk
        obtain rfl : n = a := by simpa [arrivals] using ha
        exact hsettles.extend hext'
      | succ k => exact hsettle k e a hk ha
    · rcases hcopies e he with he | ⟨k, s', hk, ha, hplace⟩
      · rcases copies_placeRead he with he | ⟨rfl, harrival, hplace⟩
        · exact .inl he
        · exact .inr ⟨0, s, rfl, by simp [arrivals, harrival], hext'.remap _ _ hplace⟩
      · exact .inr ⟨k + 1, s', hk, ha, hplace⟩

/-! ### The slots that do not arrive -/

theorem placing_placeNew {room : Int → Nat} {arriving : Int → Nat → Prop} {width : Nat}
    (h : Placing room arriving top top p)
    (hroom : p.remap.get? slot = none → room slot = width) :
    Placing room arriving top top (p.placeNew slot width) ∧ p.Extends (p.placeNew slot width) ∧
      (p.placeNew slot width).remap.contains slot ∧ (p.placeNew slot width).copies = p.copies := by
  unfold placeNew
  split
  · next hcontains => exact ⟨h, .refl p, hcontains, rfl⟩
  · next hcontains =>
    have hnone : p.remap.get? slot = none := by simpa [SlotMap.contains] using hcontains
    refine ⟨h.append (hroom hnone) (Nat.le_refl _) (Nat.le_refl _),
      ⟨fun _ _ => get?_insert_of_none hnone, ?_⟩, ?_, rfl⟩
    · exact fun _ he => he
    · simp [SlotMap.contains]

theorem Extends.contains {q : SlotPlan} (h : p.Extends q) (hs : p.remap.contains slot) :
    q.remap.contains slot := by
  obtain ⟨k, hk⟩ := Option.isSome_iff_exists.1 hs
  exact Option.isSome_iff_exists.2 ⟨k, h.remap slot k hk⟩

theorem placing_placeNews {room : Int → Nat} {arriving : Int → Nat → Prop} {l : List (Int × Nat)}
    (h : Placing room arriving top top p)
    (hroom : ∀ e ∈ l, p.remap.get? e.1 = none → room e.1 = e.2) (hnodup : (l.map (·.1)).Nodup) :
    Placing room arriving top top (l.foldl (fun p e => p.placeNew e.1 e.2) p) ∧
      p.Extends (l.foldl (fun p e => p.placeNew e.1 e.2) p) ∧
      (∀ e ∈ l, (l.foldl (fun p e => p.placeNew e.1 e.2) p).remap.contains e.1) ∧
      (l.foldl (fun p e => p.placeNew e.1 e.2) p).copies = p.copies := by
  induction l generalizing p with
  | nil => exact ⟨h, .refl p, by simp, rfl⟩
  | cons first rest ih =>
    rw [List.map_cons, List.nodup_cons] at hnodup
    obtain ⟨hplacing, hext, hcontains, hcopies⟩ :=
      placing_placeNew h (hroom first List.mem_cons_self)
    have hroom' (e : Int × Nat) (he : e ∈ rest)
        (hnone : (p.placeNew first.1 first.2).remap.get? e.1 = none) : room e.1 = e.2 := by
      refine hroom e (List.mem_cons_of_mem _ he) ?_
      cases hget : p.remap.get? e.1 with
      | none => rfl
      | some k => rw [hext.remap _ _ hget] at hnone; cases hnone
    obtain ⟨hplacing', hext', hcontains', hcopies'⟩ := ih hplacing hroom' hnodup.2
    refine ⟨hplacing', hext.trans hext', fun e he => ?_, hcopies'.trans hcopies⟩
    rcases List.mem_cons.1 he with rfl | he
    · exact hext'.contains hcontains
    · exact hcontains' e he

/-! ### The whole plan -/

/-- Where the arguments of the extracted routine end. -/
def argumentsEnd (c : Cut) : Nat := (arrivals 0 c.arguments).2

/-- A read local arrives in a slot, where there is room enough for it. -/
def Arrives (c : Cut) (widths : SlotMap Nat) (s : Int) (a : Nat) : Prop :=
  ∃ (k : Nat) (t : JType), c.read.toList[k]? = some (s, t) ∧
    (arrivals 0 c.arguments).1[c.consumed.length + k]? = some a ∧ room c widths s = t.size

/-- **What the plan of a cut promises.** The arrivals of the read locals come after those of the
consumed values. -/
structure Places (c : Cut) (widths : SlotMap Nat) (p : SlotPlan) : Prop where
  room_pos : ∀ s, widths.contains s ∨ c.read.contains s → 1 ≤ room c widths s
  apart : p.Apart (room c widths)
  touched : ∀ s, widths.contains s → p.remap.contains s
  settles : ∀ (k : Nat) (s : Int) (t : JType) (a : Nat), c.read.toList[k]? = some (s, t) →
    (arrivals 0 c.arguments).1[c.consumed.length + k]? = some a → p.Settles s t a
  copies : ∀ e ∈ p.copies, argumentsEnd c ≤ e.2.2 ∧ ∃ (k : Nat) (s : Int),
    c.read.toList[k]? = some (s, e.1) ∧
    (arrivals 0 c.arguments).1[c.consumed.length + k]? = some e.2.1 ∧
    p.remap.get? s = some e.2.2
  nodup : (p.copies.map (·.2.2)).Nodup
  /-- A place that is not new is one where a read local arrives, and is wide enough for it. -/
  fresh : ∀ s k, p.remap.get? s = some k → argumentsEnd c ≤ k ∨ Arrives c widths s k
  within : ∀ s k, p.remap.get? s = some k → k + room c widths s ≤ p.next

theorem places_ofCut (hpos : ∀ s w, widths.get? s = some w → 1 ≤ w)
    (hsize : ∀ e ∈ c.read.toList, 1 ≤ e.2.size)
    (hwritten : ∀ e ∈ c.written.toList, widths.contains e.1) :
    Places c widths (ofCut c widths) := by
  have hplaced := arrivals_append 0 c.consumed (c.read.toList.map (·.2))
  have hget (k : Nat) : (arrivals 0 c.arguments).1[c.consumed.length + k]? =
      (arrivals (arrivals 0 c.consumed).2 (c.read.toList.map (·.2))).1[k]? := by
    rw [Cut.arguments, hplaced, List.getElem?_append_right (by simp)]
    simp
  have hend : argumentsEnd c =
      (arrivals (arrivals 0 c.consumed).2 (c.read.toList.map (·.2))).2 := by
    rw [argumentsEnd, Cut.arguments, hplaced]
  have hread (e : Int × JType) (he : e ∈ c.read.toList) : c.read.get? e.1 = some e.2 :=
    (SlotMap.mem_entries_iff c.read e.1 e.2).1 he
  have hroom (e : Int × JType) (he : e ∈ c.read.toList) :
      room c widths e.1 = max ((widths.get? e.1).getD 0) e.2.size := by
    unfold room
    rw [hread e he]
    rfl
  -- the read locals
  obtain ⟨hreads, -, hsettles, hcopies⟩ := @placing_placeReads widths
    ⟨argumentsEnd c, .empty, []⟩ (argumentsEnd c) (arrivals 0 c.consumed).2 (room c widths)
    (Arrives c widths) c.read.toList
    (fun k e a hk ha hle => ⟨k, e.2, hk, (hget k).trans ha, by
      rw [hroom e (List.mem_of_getElem? hk), Nat.max_eq_right hle]⟩)
    c.read.nodup_keys (by simp) (fun e he => ⟨hroom e he, hsize e he⟩) hend
    ⟨Nat.le_refl _, by simp, by simp [Apart], by simp, by simp, by simp⟩
  generalize hp : placeReads widths (arrivals 0 c.consumed).2 c.read.toList
    ⟨argumentsEnd c, .empty, []⟩ = p at hreads hsettles hcopies
  -- the other slots that are touched
  have htouched (e : Int × Nat) (he : e ∈ widths.toList) (hnone : p.remap.get? e.1 = none) :
      room c widths e.1 = e.2 := by
    unfold room
    rw [(SlotMap.mem_entries_iff widths e.1 e.2).1 he]
    cases ht : c.read.get? e.1 with
    | none => simp
    | some t =>
      obtain ⟨k, hk⟩ := List.getElem?_of_mem ((SlotMap.mem_entries_iff c.read e.1 t).2 ht)
      have hlt : k < (arrivals (arrivals 0 c.consumed).2 (c.read.toList.map (·.2))).1.length := by
        rw [length_arrivals, List.length_map]
        exact (List.getElem?_eq_some_iff.1 hk).1
      obtain ⟨q, hq, -⟩ := hsettles k (e.1, t) _ hk (List.getElem?_eq_getElem hlt)
      rw [hq] at hnone
      cases hnone
  obtain ⟨hnews, hext, hcontains, hsame⟩ := placing_placeNews hreads htouched widths.nodup_keys
  generalize hq : widths.toList.foldl (fun p e => p.placeNew e.1 e.2) p = q
    at hnews hext hcontains hsame
  have hwidths (s : Int) (hs : widths.contains s) : q.remap.contains s := by
    obtain ⟨w, hw⟩ := Option.isSome_iff_exists.1 hs
    exact hcontains (s, w) ((SlotMap.mem_entries_iff widths s w).2 hw)
  -- the written locals have their places already
  have hall : ofCut c widths = q := by
    have hfold (l : List (Int × JType)) (hl : ∀ e ∈ l, widths.contains e.1) :
        l.foldl (fun p e => p.placeNew e.1 e.2.size) q = q := by
      induction l with
      | nil => rfl
      | cons first rest ih =>
        rw [List.foldl_cons, placeNew, if_pos (hwidths _ (hl first List.mem_cons_self))]
        exact ih fun e he => hl e (List.mem_cons_of_mem _ he)
    unfold ofCut
    dsimp only
    rw [← hend]
    change c.written.toList.foldl _ (widths.toList.foldl _ (placeReads _ _ _ _)) = q
    rw [hp, hq, hfold _ hwritten]
  rw [hall]
  refine ⟨fun s hs => ?_, hnews.apart, hwidths, fun k s t a hk ha => ?_, fun e he => ?_,
    hnews.nodup, hnews.fresh, fun s k hk => ?_⟩
  · unfold room
    rcases hs with hs | hs
    · obtain ⟨w, hw⟩ := Option.isSome_iff_exists.1 hs
      rw [hw]
      exact Nat.le_trans (hpos s w hw) (Nat.le_max_left _ _)
    · obtain ⟨t, ht⟩ := Option.isSome_iff_exists.1 hs
      rw [ht]
      exact Nat.le_trans (hsize (s, t) ((SlotMap.mem_entries_iff c.read s t).2 ht))
        (Nat.le_max_right _ _)
  · exact (hsettles k (s, t) a hk (hget k ▸ ha)).extend hext
  · refine ⟨(hnews.copies e he).1, ?_⟩
    obtain ⟨k, s, hk, ha, hplace⟩ := (hcopies e (hsame ▸ he)).resolve_left (by simp)
    exact ⟨k, s, hk, (hget k).trans ha, hext.remap _ _ hplace⟩
  · have htop := hnews.top_le
    rcases hnews.side s k hk with hle | ⟨-, hle⟩
    · exact Nat.le_trans hle htop
    · exact hle

/-! ### The slots that a range names -/

/-- Notes the width of one access. -/
def widen (widths : SlotMap Nat) (insn : Instruction) : SlotMap Nat :=
  match insn.slotAccess? with
  | some (slot, width) =>
    if (widths.get? slot).getD 0 < width then widths.insert slot width else widths
  | none => widths

theorem one_le_of_slotAccess? {insn : Instruction} {width : Nat}
    (h : insn.slotAccess? = some (slot, width)) : 1 ≤ width := by
  have hkind (kind : SlotKind) : 1 ≤ kind.size := by cases kind <;> decide
  unfold Instruction.slotAccess? at h
  split at h
  all_goals cases h
  · exact hkind _
  · exact hkind _
  · exact Nat.le_refl 1
  · exact Nat.le_refl 1

theorem widen_spec (widths : SlotMap Nat) (insn : Instruction) :
    (∀ s w, (widen widths insn).get? s = some w → 1 ≤ w ∨ widths.get? s = some w) ∧
      ∀ s, widths.contains s ∨ (∃ width, insn.slotAccess? = some (s, width)) →
        (widen widths insn).contains s := by
  unfold widen
  cases haccess : insn.slotAccess? with
  | none => exact ⟨fun s w hs => .inr hs, fun s hs => by simpa using hs⟩
  | some access =>
    obtain ⟨slot, width⟩ := access
    have hwidth := one_le_of_slotAccess? haccess
    dsimp only
    split
    · refine ⟨fun s w hs => ?_, fun s hs => ?_⟩
      · rw [SlotMap.get?_insert] at hs
        split at hs
        · obtain rfl := Option.some.inj hs
          exact .inl hwidth
        · exact .inr hs
      · rw [SlotMap.contains, SlotMap.get?_insert]
        split
        · rfl
        · next hne =>
          refine hs.resolve_right ?_
          rintro ⟨width', heq⟩
          exact hne (Prod.mk.inj (Option.some.inj heq)).1
    · -- a narrower access than one before leaves the widths as they are
      next hle =>
      refine ⟨fun s w hs => .inr hs, fun s hs => hs.elim id ?_⟩
      rintro ⟨width', heq⟩
      obtain rfl := (Prod.mk.inj (Option.some.inj heq)).1
      cases hget : widths.get? slot with
      | none =>
        rw [hget, Option.getD_none] at hle
        omega
      | some w => exact Option.isSome_iff_exists.2 ⟨w, hget⟩

theorem accessWidths_spec (insns : List Instruction) :
    (∀ s w, (accessWidths insns).get? s = some w → 1 ≤ w) ∧
      ∀ insn ∈ insns, ∀ s width, insn.slotAccess? = some (s, width) →
        (accessWidths insns).contains s := by
  suffices hfold : ∀ widths : SlotMap Nat, (∀ s w, widths.get? s = some w → 1 ≤ w) →
      (∀ s w, (insns.foldl widen widths).get? s = some w → 1 ≤ w) ∧
        ∀ s, widths.contains s ∨ (∃ insn ∈ insns, ∃ width, insn.slotAccess? = some (s, width)) →
          (insns.foldl widen widths).contains s by
    obtain ⟨hpos, hcontains⟩ := hfold .empty (by simp)
    exact ⟨hpos, fun insn hinsn s width hs => hcontains s (.inr ⟨insn, hinsn, width, hs⟩)⟩
  induction insns with
  | nil => exact fun widths hwidths => ⟨hwidths, fun s hs => by simpa using hs⟩
  | cons insn rest ih =>
    intro widths hwidths
    obtain ⟨hpos, hcontains⟩ := widen_spec widths insn
    obtain ⟨hpos', hcontains'⟩ := ih (widen widths insn) fun s w hs =>
      (hpos s w hs).elim id (hwidths s w)
    refine ⟨hpos', fun s hs => hcontains' s ?_⟩
    rcases hs with hs | ⟨insn', hinsn', hs⟩
    · exact .inl (hcontains s (.inl hs))
    · rcases List.mem_cons.1 hinsn' with rfl | hrest
      · exact .inl (hcontains s (.inr hs))
      · exact .inr ⟨insn', hrest, hs⟩

/-- No two slots have the same place. -/
theorem Places.place_inj (h : Places c widths p) {s s' : Int} {k : Nat}
    (hs : widths.contains s ∨ c.read.contains s) (hs' : widths.contains s' ∨ c.read.contains s')
    (hk : p.remap.get? s = some k) (hk' : p.remap.get? s' = some k) : s = s' := by
  have hroom := h.room_pos s hs
  have hroom' := h.room_pos s' hs'
  rcases Int.lt_trichotomy s s' with hlt | heq | hlt
  · have := h.apart s s' k k hk hk' (Int.ne_of_lt hlt)
    omega
  · exact heq
  · have := h.apart s s' k k hk hk' (Int.ne_of_gt hlt)
    omega

theorem Places.slot_inj (h : Places c widths p) {s s' : Int} (hs : widths.contains s)
    (hs' : widths.contains s') (heq : p.slot s = p.slot s') : s = s' := by
  obtain ⟨k, hk⟩ := Option.isSome_iff_exists.1 (h.touched s hs)
  obtain ⟨k', hk'⟩ := Option.isSome_iff_exists.1 (h.touched s' hs')
  rw [slot, slot, hk, hk', Option.getD_some, Option.getD_some] at heq
  obtain rfl : k = k' := Int.ofNat.inj heq
  exact h.place_inj (.inl hs) (.inl hs') hk hk'

end SlotPlan

end Outliner
