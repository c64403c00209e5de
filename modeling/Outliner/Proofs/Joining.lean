import Outliner.Proofs.Untouched

/-!
# Merging is a join

What an analysis knows about a frame is its view: the cells of the stack and the type in every slot.
Whether an unusable slot has an entry of its own does not show in it. Merging goes through the
entries of one frame only and passes over the unusable ones; all the same it merges the views at
every place, since an unusable type stays unusable whatever is merged into it.

* `JType.merge_flat_comm` and `JType.merge_flat_assoc` — under the flat hierarchy the types are a
  semilattice, with `JType.Absorbs` as its order;
* `Frame.mergeAll_spec` — merging one frame after the other merges the types at each place;
* `Frame.merge_joins` — so the order and the number of merges do not matter, and a frame that has
  been merged in brings nothing new.
-/

namespace Outliner

/-! ### The semilattice of types -/

namespace JType

variable {a b c : JType}

/-- A merged type is the least one that absorbs both. -/
theorem absorbs_merge_iff :
    c.Absorbs .flat (a.merge .flat b) ↔ c.Absorbs .flat a ∧ c.Absorbs .flat b := by
  constructor
  · intro h
    exact ⟨h.trans ((Absorbs.refl a).merged b), h.trans (absorbs_merged a b)⟩
  · rintro ⟨ha, hb⟩
    exact ha.lub hb

/-- Types that are absorbed by the same types are equal. -/
theorem eq_of_absorbs_iff (h : ∀ c : JType, c.Absorbs .flat a ↔ c.Absorbs .flat b) : a = b :=
  ((h a).1 (.refl a)).antisymm ((h b).2 (.refl b))

theorem merge_flat_comm (a b : JType) : a.merge .flat b = b.merge .flat a := by
  refine eq_of_absorbs_iff fun c => ?_
  rw [absorbs_merge_iff, absorbs_merge_iff, and_comm]

theorem merge_flat_assoc (a b c : JType) :
    (a.merge .flat b).merge .flat c = a.merge .flat (b.merge .flat c) := by
  refine eq_of_absorbs_iff fun d => ?_
  simp only [absorbs_merge_iff, and_assoc]

/-- What many types merge into is the least type that absorbs them all. -/
theorem absorbs_foldl_iff {types : List JType} :
    c.Absorbs .flat (types.foldl (merge .flat) a) ↔ ∀ t ∈ a :: types, c.Absorbs .flat t := by
  induction types generalizing a with
  | nil => simp
  | cons b types ih =>
    rw [List.foldl_cons, ih]
    simp only [List.forall_mem_cons, absorbs_merge_iff, and_assoc]

/-- **Neither the order nor the number of merges matters.** -/
theorem foldl_merge_congr {types types' : List JType}
    (h : ∀ t, t ∈ a :: types ↔ t ∈ b :: types') :
    types.foldl (merge .flat) a = types'.foldl (merge .flat) b := by
  refine eq_of_absorbs_iff fun c => ?_
  simp only [absorbs_foldl_iff, h]

end JType

/-! ### Views -/

namespace Frame

variable {h : Hierarchy} {f g m : Frame} {changed : Bool}

/-- **What a frame says**: its cells, and the type in each slot. -/
def view (f : Frame) : List JType × (Int → JType) := (f.stack, f.slot)

/-- A view is a depth and the types at all places. -/
theorem view_eq_iff :
    f.view = g.view ↔ f.depth = g.depth ∧ ∀ place, f.typeAt place = g.typeAt place := by
  constructor
  · intro heq
    obtain ⟨hstack, hslot⟩ := Prod.mk.inj heq
    refine ⟨congrArg List.length hstack, fun place => ?_⟩
    cases place with
    | cell d => exact congrArg (cellAt · d) hstack
    | slot index => exact congrFun hslot index
  · rintro ⟨hdepth, hplace⟩
    have hlength : f.stack.reverse.length = g.stack.reverse.length := by
      simpa [depth] using hdepth
    have hstack : f.stack.reverse = g.stack.reverse := by
      refine List.ext_getElem hlength fun d hf hg => ?_
      have hcell : f.stack.reverse[d]?.getD .top = g.stack.reverse[d]?.getD .top :=
        hplace (.cell d)
      rwa [List.getElem?_eq_getElem hf, List.getElem?_eq_getElem hg] at hcell
    have hslot : f.slot = g.slot := funext fun index => hplace (.slot index)
    rw [view, view, List.reverse_injective hstack, hslot]

/-- Frames of one depth can be merged. -/
theorem exists_merge (h : Hierarchy) (hdepth : f.depth = g.depth) :
    ∃ m changed, f.merge h g = .ok (m, changed) := by
  unfold merge
  rw [if_pos hdepth]
  exact ⟨_, _, rfl⟩

/-- **A merge reports a change if and only if the view has changed.** -/
theorem changed_iff (hm : f.merge h g = .ok (m, changed)) : changed = true ↔ m.view ≠ f.view := by
  have hlocals : m.locals = mergeLocals h f g := by
    unfold merge at hm
    split at hm <;> cases hm
    rfl
  obtain ⟨hdepth, -, hslot, rfl⟩ := merge_eq_ok hm
  rw [decide_eq_true_iff, not_iff_not]
  refine ⟨congrArg view, fun heq => ?_⟩
  obtain ⟨hstack, hslots⟩ := Prod.mk.inj heq
  -- the entries are the same too, since only those of the first frame are gone through
  have habsorbs : ∀ index, (f.slot index).Absorbs h (g.slot index) := fun index =>
    (hslot index).symm.trans (congrFun hslots index)
  rw [mergeLocals_eq_self_iff.2 habsorbs] at hlocals
  obtain ⟨stack, locals⟩ := m
  obtain rfl : stack = f.stack := hstack
  obtain rfl : locals = f.locals := hlocals
  rfl

theorem depth_merge (hm : f.merge h g = .ok (m, changed)) : m.depth = f.depth := by
  obtain ⟨hdepth, hstack, -⟩ := merge_eq_ok hm
  rw [depth, hstack, List.length_zipWith]
  exact Nat.min_eq_left (Nat.le_of_eq hdepth)

/-- A frame absorbs another one if it does so at every place. -/
theorem absorbs_of_typeAt (hdepth : f.depth = g.depth)
    (habsorbs : ∀ place, (f.typeAt place).Absorbs h (g.typeAt place)) : f.Absorbs h g := by
  obtain ⟨m, changed, hm⟩ := exists_merge h hdepth
  have hview : m.view = f.view :=
    view_eq_iff.2 ⟨depth_merge hm, fun place => (typeAt_merge hm place).trans (habsorbs place)⟩
  obtain rfl : changed = false := by simpa [hview] using changed_iff hm
  rw [eq_of_merge_unchanged hm] at hm
  exact hm

/-! ### Merging many frames -/

/-- Merges frames into a first one, one after the other. -/
def mergeAll (h : Hierarchy) (f : Frame) : List Frame → Except DepthMismatch Frame
  | [] => .ok f
  | g :: gs =>
    match f.merge h g with
    | .ok (m, _) => mergeAll h m gs
    | .error e => .error e

/-- **Merging frames of one depth merges the types at each place.** -/
theorem mergeAll_spec (h : Hierarchy) {gs : List Frame} (hdepth : ∀ g ∈ gs, f.depth = g.depth) :
    ∃ m, mergeAll h f gs = .ok m ∧ m.depth = f.depth ∧ ∀ place,
      m.typeAt place = (gs.map (typeAt · place)).foldl (JType.merge h) (f.typeAt place) := by
  induction gs generalizing f with
  | nil => exact ⟨f, rfl, rfl, fun _ => rfl⟩
  | cons g gs ih =>
    obtain ⟨hg, hgs⟩ := List.forall_mem_cons.1 hdepth
    obtain ⟨m, changed, hm⟩ := exists_merge h hg
    -- the merged frame takes the place of the first one, at the same depth
    have hdepth' := depth_merge hm
    obtain ⟨m', hm', hdepth'', hplace⟩ := ih fun g' hg' => hdepth'.trans (hgs g' hg')
    refine ⟨m', ?_, hdepth''.trans hdepth', fun place => ?_⟩
    · rw [mergeAll, hm]
      exact hm'
    · rw [hplace, typeAt_merge hm, List.map_cons, List.foldl_cons]

variable {gs gs' : List Frame} {f' m' : Frame}

/-- The frames that have been merged bring nothing new. -/
theorem absorbs_mergeAll (hdepth : ∀ g ∈ gs, f.depth = g.depth)
    (hm : mergeAll .flat f gs = .ok m) : ∀ g ∈ f :: gs, m.Absorbs .flat g := by
  obtain ⟨m', hm', hdepth', hplace⟩ := mergeAll_spec .flat hdepth
  obtain rfl := Except.ok.inj (hm.symm.trans hm')
  intro g hg
  have hfg : f.depth = g.depth := by
    rcases List.mem_cons.1 hg with rfl | hg
    · rfl
    · exact hdepth g hg
  refine absorbs_of_typeAt (hdepth'.trans hfg) fun place => ?_
  -- a merged type absorbs itself, and so all that went into it
  have hself := JType.Absorbs.refl (h := .flat) (m.typeAt place)
  rw [hplace, JType.absorbs_foldl_iff, ← hplace, ← List.map_cons (f := (typeAt · place))] at hself
  exact hself _ (List.mem_map_of_mem hg)

/-- **Frames with the same views merge into frames with the same view**, in whatever order and
however often each of them is merged in. -/
theorem exists_mergeAll_congr (hdepth : ∀ g ∈ gs, f.depth = g.depth)
    (hviews : ∀ v, v ∈ (f :: gs).map view ↔ v ∈ (f' :: gs').map view) :
    ∃ m m', mergeAll .flat f gs = .ok m ∧ mergeAll .flat f' gs' = .ok m' ∧ m.view = m'.view := by
  -- each frame on the right has the view of one on the left, and so its depth
  have hfound : ∀ g' ∈ f' :: gs', ∃ g ∈ f :: gs, g.view = g'.view := fun g' hg' =>
    List.mem_map.1 ((hviews g'.view).2 (List.mem_map_of_mem hg'))
  have hdepth' : ∀ g' ∈ f' :: gs', g'.depth = f.depth := by
    intro g' hg'
    obtain ⟨g, hg, hview⟩ := hfound g' hg'
    rw [← (view_eq_iff.1 hview).1]
    rcases List.mem_cons.1 hg with rfl | hg
    · rfl
    · exact (hdepth g hg).symm
  obtain ⟨hf', hgs'⟩ := List.forall_mem_cons.1 hdepth'
  obtain ⟨m, hm, hmdepth, hplace⟩ := mergeAll_spec .flat hdepth
  obtain ⟨m', hm', hmdepth', hplace'⟩ :=
    mergeAll_spec .flat fun g hg => hf'.trans (hgs' g hg).symm
  refine ⟨m, m', hm, hm', view_eq_iff.2 ⟨?_, fun place => ?_⟩⟩
  · rw [hmdepth, hmdepth', hf']
  · rw [hplace, hplace']
    refine JType.foldl_merge_congr fun t => ?_
    -- the types at a place are read off the views
    simp only [← List.map_cons (f := (typeAt · place)), List.mem_map]
    constructor
    · rintro ⟨g, hg, rfl⟩
      obtain ⟨g', hg', hview⟩ := List.mem_map.1 ((hviews g.view).1 (List.mem_map_of_mem hg))
      exact ⟨g', hg', (view_eq_iff.1 hview).2 place⟩
    · rintro ⟨g', hg', rfl⟩
      obtain ⟨g, hg, hview⟩ := hfound g' hg'
      exact ⟨g, hg, (view_eq_iff.1 hview).2 place⟩

end Frame

/-- Control that arrives with a stack of another depth changes no frame. -/
theorem Flow.Pass.frames_arrive {h : Hierarchy} {f g : Frame} {p : Pass} {offset : Nat}
    (r : Routine) (hknown : p.frame? offset = some f) (hdepth : f.depth ≠ g.depth) :
    (p.arrive r h offset g).frames = p.frames := by
  have hmerge : f.merge h g = .error ⟨f.depth, g.depth⟩ := if_neg hdepth
  unfold arrive
  rw [hknown]
  split
  · rfl
  · simp only [hmerge, fail_frames]

namespace Frame

/-- **Merging is a join.** Under the flat hierarchy types are merged commutatively, associatively
and idempotently. Frames of one depth are merged at every cell and every slot, with a change
reported if and only if it shows in the view; which frames there are decides what view they merge
into, and none of them changes it again. Frames of different depth are not merged, and what was
known is kept. -/
theorem merge_joins :
    ((∀ a b : JType, a.merge .flat b = b.merge .flat a) ∧
      (∀ a b c : JType, (a.merge .flat b).merge .flat c = a.merge .flat (b.merge .flat c)) ∧
      ∀ a : JType, a.merge .flat a = a) ∧
    (∀ (h : Hierarchy) (f g : Frame), f.depth = g.depth →
      ∃ m changed, f.merge h g = .ok (m, changed) ∧
        m.view = (List.zipWith (JType.merge h) f.stack g.stack,
          fun index => (f.slot index).merge h (g.slot index)) ∧
        (changed = true ↔ m.view ≠ f.view)) ∧
    (∀ (f f' : Frame) (gs gs' : List Frame), (∀ g ∈ gs, f.depth = g.depth) →
      (∀ v, v ∈ (f :: gs).map view ↔ v ∈ (f' :: gs').map view) →
      ∃ m m', mergeAll .flat f gs = .ok m ∧ mergeAll .flat f' gs' = .ok m' ∧ m.view = m'.view ∧
        ∀ g ∈ f :: gs, m.merge .flat g = .ok (m, false)) ∧
    ∀ (h : Hierarchy) (f g : Frame), f.depth ≠ g.depth →
      f.merge h g = .error ⟨f.depth, g.depth⟩ ∧
        ∀ (r : Routine) (p : Flow.Pass) (offset : Nat), p.frame? offset = some f →
          (p.arrive r h offset g).frames = p.frames := by
  refine ⟨⟨JType.merge_flat_comm, JType.merge_flat_assoc, JType.merge_self⟩,
    fun h f g hdepth => ?_, fun f f' gs gs' hdepth hviews => ?_, fun h f g hdepth => ?_⟩
  · obtain ⟨m, changed, hm⟩ := exists_merge h hdepth
    obtain ⟨-, hstack, hslot, -⟩ := merge_eq_ok hm
    exact ⟨m, changed, hm, Prod.ext hstack (funext hslot), changed_iff hm⟩
  -- what is merged is known up to its view, and every frame that went in is absorbed
  · obtain ⟨m, m', hm, hm', hview⟩ := exists_mergeAll_congr hdepth hviews
    exact ⟨m, m', hm, hm', hview, absorbs_mergeAll hdepth hm⟩
  · exact ⟨if_neg hdepth, fun r p offset hknown => Flow.Pass.frames_arrive r hknown hdepth⟩

theorem merge_joins_arrivals :
    let f : Frame := ⟨[.null], .ofList [(0, .object "A"), (1, .int)]⟩
    let g : Frame := ⟨[.object "B"], .ofList [(0, .null), (2, .long), (3, .top)]⟩
    let p : Flow.Pass := { Flow.Pass.start 1 with frames := #[some f] }
    (∃ m changed, f.merge .flat g = .ok (m, changed) ∧ (changed = true ↔ m.view ≠ f.view)) ∧
      (∃ m m', mergeAll .flat f [g] = .ok m ∧ mergeAll .flat g [f, g, f] = .ok m' ∧
        m.view = m'.view ∧ m.merge .flat g = .ok (m, false)) ∧
      f.merge .flat empty = .error ⟨1, 0⟩ ∧
      (p.arrive default .flat 0 empty).frames = #[some f] := by
  intro f g p
  obtain ⟨-, hpair, hmany, hdeep⟩ := merge_joins
  obtain ⟨m, changed, hm, -, hchanged⟩ := hpair .flat f g rfl
  obtain ⟨k, k', hk, hk', hview, hagain⟩ := hmany f g [g] [f, g, f] (by decide) fun v => by
    simp only [List.map_cons, List.map_nil, List.mem_cons, List.not_mem_nil, or_false]
    tauto
  obtain ⟨herror, hkeeps⟩ := hdeep .flat f empty (by decide)
  exact ⟨⟨m, changed, hm, hchanged⟩, ⟨k, k', hk, hk', hview, hagain g (by decide)⟩, herror,
    hkeeps default p 0 rfl⟩

end Frame

end Outliner
