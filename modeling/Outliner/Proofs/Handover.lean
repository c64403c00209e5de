import Outliner.Proofs.Descriptors
import Outliner.Proofs.Placement
import Outliner.Proofs.Routes

/-!
# Passing values in a call

The code that a split adds moves values around: it loads what the extracted routine takes, calls it,
and takes the array of results apart on one side; it unloads the arguments and packs the results on
the other. Here we say what that code does to a frame.

`Form.Passes` is about one instruction and `Form.Runs` about a sequence: whenever the frame before
it does as well as expected, the tracker accepts the instructions, and the frame after them does as
well as expected again. The expectation in the middle is kept too, since an exception may take
control away there: `low` says what every slot is expected to keep all the way.

An element taken out of an array of objects is expected to be no array, which is what the type
`null` expects. It then does as well as whatever reference it is taken for.

The main results are `runs_call`, `runs_unpack`, `runs_prologue` and `runs_epilogue`.
-/

namespace Outliner

open Tracker

/-- Whether control goes on behind the instruction and nowhere else. -/
structure Instruction.GoesOn (insn : Instruction) : Prop where
  falls : insn.opcode.fallsThrough
  plain : insn.opcode.isSubroutineCall = false
  targets : insn.targets = []

namespace Form

/-- What is expected of a frame with the given values on top of the stack, topmost first. -/
def topped (base : List JType) (asks : Int → JType → Prop) (values : List JType) : Form :=
  ⟨cellsOfAll values ++ base, asks⟩

/-- **One instruction turns one expectation into another.** -/
structure Passes (owner : String) (v : Form) (insn : Instruction) (w : Form) : Prop where
  goes : insn.GoesOn
  does : Does owner v insn w

/-- Whatever does as well as one form expects does as well as the other expects. -/
def Yields (owner : String) (v w : Form) : Prop :=
  ∀ f, v.Fits owner f → w.Fits owner f

/-- **A sequence of instructions turns one expectation into another**, and what `low` says of the
slots is expected throughout. -/
inductive Runs (owner : String) (low : Int → JType → Prop) :
    Form → List Instruction → Form → Prop where
  | nil {v w : Form} (meets : ∀ k t, low k t → v.asks k t) (yields : Yields owner v w) :
    Runs owner low v [] w
  | cons {v w u : Form} {insn : Instruction} {rest : List Instruction}
    (meets : ∀ k t, low k t → v.asks k t) (passes : Passes owner v insn w)
    (runs : Runs owner low w rest u) : Runs owner low v (insn :: rest) u

variable {owner : String} {low : Int → JType → Prop} {base : List JType}
  {asks asks' : Int → JType → Prop} {values : List JType} {t : JType} {insn : Instruction}

namespace Runs

variable {v w u : Form} {insns insns' : List Instruction}

theorem refl (hv : ∀ k t, low k t → v.asks k t) : Runs owner low v [] v :=
  .nil hv fun _ h => h

theorem of_yields (hv : ∀ k t, low k t → v.asks k t) (hyields : Yields owner v w)
    (h : Runs owner low w insns u) : Runs owner low v insns u := by
  cases h with
  | nil _ yields => exact .nil hv fun f hf => yields f (hyields f hf)
  | cons _ passes runs =>
    exact .cons hv ⟨passes.goes, fun offset f hf => passes.does offset f (hyields f hf)⟩ runs

theorem append (h : Runs owner low v insns w) (h' : Runs owner low w insns' u) :
    Runs owner low v (insns ++ insns') u := by
  induction h with
  | nil meets yields => exact h'.of_yields meets yields
  | cons meets passes _ ih => exact .cons meets passes (ih h')

theorem single (hv : ∀ k t, low k t → v.asks k t) (h : Passes owner v insn w)
    (hw : ∀ k t, low k t → w.asks k t) : Runs owner low v [insn] w :=
  .cons hv h (.refl hw)

/-- The expectations along a sequence. -/
theorem exists_forms (h : Runs owner low v insns w) :
    ∃ form : Nat → Form, form 0 = v ∧ Yields owner (form insns.length) w ∧
      (∀ q, ∀ k t, low k t → (form q).asks k t) ∧
      ∀ (q : Nat) (insn : Instruction), insns[q]? = some insn →
        Passes owner (form q) insn (form (q + 1)) := by
  induction h with
  | nil meets yields =>
    exact ⟨fun _ => _, rfl, yields, fun _ => meets, fun q insn hq => by simp at hq⟩
  | @cons v _ _ insn rest meets passes _ ih =>
    obtain ⟨form, h0, hlast, hmeets, hpasses⟩ := ih
    refine ⟨fun q => q.casesOn v form, rfl, hlast, fun q => ?_, fun q insn' hq => ?_⟩
    · cases q with
      | zero => exact meets
      | succ q => exact hmeets q
    · cases q with
      | zero =>
        obtain rfl := Option.some.inj hq
        dsimp only
        rw [h0]
        exact passes
      | succ q => exact hpasses q insn' hq

end Runs

/-! ### Single instructions -/

/-- An instruction that takes some values off and pushes others. -/
theorem passes_of_run {x y : List JType} (hgoes : insn.GoesOn) (husable : ∀ t ∈ x, t ≠ .top)
    (husable' : ∀ t ∈ y, t ≠ .top)
    (h : ∀ (i : Int) (s : State) (x' rest : List JType), s.frame.stack = cellsOfAll x' ++ rest →
      List.Forall₂ (ValueSuits owner) x x' → (∀ u below, rest = u :: below → u.size ≠ 2) →
      (∀ k u, asks k u → u.Suits owner (s.frame.slot k)) →
      ∃ y' s', (perform owner insn i).run s = .ok () s' ∧
        s'.frame.stack = cellsOfAll y' ++ rest ∧ List.Forall₂ (ValueSuits owner) y y' ∧
        ∀ k u, asks' k u → u.Suits owner (s'.frame.slot k)) (us : List JType) :
    Passes owner (topped base asks (x ++ us)) insn (topped base asks' (y ++ us)) := by
  refine ⟨hgoes, fun offset f hf => ?_⟩
  have hstack := hf.stack
  unfold topped at hstack
  rw [cellsOfAll_append, List.append_assoc] at hstack
  obtain ⟨x', rest, hcells, hx, hrest⟩ := hstack.popAll husable
  obtain ⟨y', s', hrun, hstack', hy, hslots⟩ := h offset ⟨f, f.depth, [], []⟩ x' rest hcells hx
    (fun u below heq => by rw [heq] at hrest; exact hrest.head_size) hf.slots
  refine ⟨s'.frame, _, by rw [execute, hrun], ?_, hslots⟩
  unfold topped
  rw [cellsOfAll_append, List.append_assoc, hstack']
  exact hrest.pushAll hy husable'

/-- An instruction that leaves the slots alone. -/
theorem passes_of_stack {x y : List JType} (hgoes : insn.GoesOn) (husable : ∀ t ∈ x, t ≠ .top)
    (husable' : ∀ t ∈ y, t ≠ .top)
    (h : ∀ (i : Int) (s : State) (x' rest : List JType), s.frame.stack = cellsOfAll x' ++ rest →
      List.Forall₂ (ValueSuits owner) x x' → (∀ u below, rest = u :: below → u.size ≠ 2) →
      ∃ y' s', (perform owner insn i).run s = .ok () s' ∧
        s'.frame = ⟨cellsOfAll y' ++ rest, s.frame.locals⟩ ∧
        List.Forall₂ (ValueSuits owner) y y') (us : List JType) :
    Passes owner (topped base asks (x ++ us)) insn (topped base asks (y ++ us)) := by
  refine passes_of_run hgoes husable husable' (fun i s x' rest hstack hx hrest hslots => ?_) us
  obtain ⟨y', s', hrun, hframe, hy⟩ := h i s x' rest hstack hx hrest
  refine ⟨y', s', hrun, by rw [hframe], hy, fun k u hu => ?_⟩
  rw [hframe]
  exact hslots k u hu

theorem run_pop {s : State} {n : Nat} {x rest : List JType} (hstack : s.frame.stack = x ++ rest)
    (hn : x.length = n) :
    ∃ low, (pop n).run s = .ok x ⟨⟨rest, s.frame.locals⟩, low, s.reads, s.writes⟩ := by
  have hle : n ≤ s.frame.depth := by
    rw [Frame.depth, hstack, List.length_append]
    omega
  refine ⟨_, by rw [pop_run hle, hstack, ← hn, List.take_left, List.drop_left]⟩

theorem run_popValue {s : State} {g : JType} {rest : List JType}
    (hstack : s.frame.stack = Frame.cellsOf g ++ rest)
    (hrest : ∀ u below, rest = u :: below → u.size ≠ 2) :
    ∃ low, popValue.run s = .ok g ⟨⟨rest, s.frame.locals⟩, low, s.reads, s.writes⟩ := by
  refine ⟨_, popValue_run ?_⟩
  have hframe : s.frame = ⟨Frame.cellsOf g ++ rest, s.frame.locals⟩ := by rw [← hstack]
  rw [hframe]
  exact Frame.pop?_cellsOf fun _ => hrest

theorem passes_push (t : JType) (hgoes : insn.GoesOn) (htop : t ≠ .top)
    (hperform : ∀ i, perform owner insn i = push t) :
    Passes owner (topped base asks values) insn (topped base asks (t :: values)) := by
  refine passes_of_stack (x := []) (y := [t]) hgoes (by simp) (by simpa using htop)
    (fun i s x' rest hstack hx _ => ?_) values
  cases hx
  refine ⟨[t], _, by rw [hperform]; rfl, ?_, .cons (.refl owner t) .nil⟩
  simp [Frame.push, hstack]

theorem passes_pushInt (v : Int32) :
    Passes owner (topped base asks values) (Snippet.pushInt v)
      (topped base asks (.int :: values)) := by
  unfold Snippet.pushInt
  split
  · exact passes_push .int ⟨rfl, rfl, rfl⟩ JType.noConfusion fun _ => rfl
  · split
    · exact passes_push .int ⟨rfl, rfl, rfl⟩ JType.noConfusion fun _ => rfl
    · split
      · exact passes_push .int ⟨rfl, rfl, rfl⟩ JType.noConfusion fun _ => rfl
      · exact passes_push .int ⟨rfl, rfl, rfl⟩ JType.noConfusion fun _ => rfl

/-- Dropping values. -/
theorem passes_drop {x : List JType} {n : Nat} (hn : (cellsOfAll x).length = n)
    (husable : ∀ t ∈ x, t ≠ .top) (hgoes : insn.GoesOn)
    (hperform : ∀ i, perform owner insn i = (pop n >>= fun _ => pure ())) :
    Passes owner (topped base asks (x ++ values)) insn (topped base asks values) := by
  refine passes_of_stack (y := []) hgoes husable (by simp)
    (fun i s x' rest hstack hx _ => ?_) values
  obtain ⟨low, hrun⟩ := run_pop hstack ((length_cellsOfAll_eq hx).trans hn)
  exact ⟨[], _, by rw [hperform]; exact bind_ok.2 ⟨_, _, hrun, rfl⟩, rfl, .nil⟩

/-- Putting a value of a fixed type in the place of others. -/
theorem passes_popPush {x : List JType} {n : Nat} {t g : JType} (hn : (cellsOfAll x).length = n)
    (husable : ∀ t ∈ x, t ≠ .top) (hgoes : insn.GoesOn) (hv : ValueSuits owner t g)
    (htop : t ≠ .top) (hperform : ∀ i, perform owner insn i = popPush n g) :
    Passes owner (topped base asks (x ++ values)) insn (topped base asks (t :: values)) := by
  refine passes_of_stack (y := [t]) hgoes husable (by simpa using htop)
    (fun i s x' rest hstack hx _ => ?_) values
  obtain ⟨low, hrun⟩ := run_pop hstack ((length_cellsOfAll_eq hx).trans hn)
  exact ⟨[g], _, by rw [hperform]; exact bind_ok.2 ⟨_, _, hrun, rfl⟩,
    by simp [Frame.push], .cons hv .nil⟩

/-- Rearranging values. -/
theorem passes_shuffle (form : Shuffle) (upper lower : List JType)
    (hupper : (cellsOfAll upper).length = form.upper)
    (hlower : (cellsOfAll lower).length = form.lower) (husable : ∀ t ∈ upper ++ lower, t ≠ .top) :
    Passes owner (topped base asks (upper ++ lower ++ values)) (.plain (.shuffle form))
      (topped base asks
        ((if form = .swap then lower ++ upper else upper ++ lower ++ upper) ++ values)) := by
  have hgoes : (Instruction.plain (.shuffle form)).GoesOn := ⟨rfl, rfl, rfl⟩
  refine passes_of_stack hgoes husable ?_ (fun i s x' rest hstack hx _ => ?_) values
  · intro t ht
    refine husable t ?_
    rw [List.mem_append]
    split at ht <;> simp only [List.mem_append] at ht <;> tauto
  -- the values above and below are told apart on the second stack as on the first
  obtain ⟨upper', lower', rfl, hupper', hlower'⟩ : ∃ upper' lower', x' = upper' ++ lower' ∧
      List.Forall₂ (ValueSuits owner) upper upper' ∧ List.Forall₂ (ValueSuits owner) lower lower' :=
    ⟨_, _, (List.take_append_drop _ x').symm, (List.forall₂_take_append _ _ _ hx.flip).flip,
      (List.forall₂_drop_append _ _ _ hx.flip).flip⟩
  obtain ⟨happly, hlength⟩ := apply_append form ((length_cellsOfAll_eq hupper').trans hupper)
    ((length_cellsOfAll_eq hlower').trans hlower)
  rw [← cellsOfAll_append] at happly hlength
  obtain ⟨low, hrun⟩ := run_pop hstack hlength
  refine ⟨if form = .swap then lower' ++ upper' else upper' ++ lower' ++ upper', _,
    show (shuffle form).run s = _ from bind_ok.2 ⟨_, _, hrun, by rw [happly]; rfl⟩, ?_, ?_⟩
  · simp only [Frame.pushAll, List.reverse_reverse]
    split <;> simp
  · split
    · exact List.rel_append hlower' hupper'
    · exact List.rel_append (List.rel_append hupper' hlower') hupper'

theorem passes_dup (ht : (Frame.cellsOf t).length = 1) (htop : t ≠ .top) :
    Passes owner (topped base asks (t :: values)) (.plain (.shuffle .dup))
      (topped base asks (t :: t :: values)) :=
  passes_shuffle .dup [t] [] (by simpa [Shuffle.upper] using ht) rfl (by simpa using htop)

theorem passes_swap {u : JType} (ht : (Frame.cellsOf t).length = 1) (htop : t ≠ .top)
    (hu : (Frame.cellsOf u).length = 1) (hutop : u ≠ .top) :
    Passes owner (topped base asks (t :: u :: values)) (.plain (.shuffle .swap))
      (topped base asks (u :: t :: values)) :=
  passes_shuffle .swap [t] [u] (by simpa [Shuffle.upper] using ht)
    (by simpa [Shuffle.lower] using hu) (by simpa using ⟨htop, hutop⟩)

/-- Putting a copy of the topmost value under the second one. -/
theorem passes_tuck (form : Shuffle) {u : JType} (hform : form ≠ .swap)
    (ht : (Frame.cellsOf t).length = form.upper) (htop : t ≠ .top)
    (hu : (Frame.cellsOf u).length = form.lower) (hutop : u ≠ .top) :
    Passes owner (topped base asks (t :: u :: values)) (.plain (.shuffle form))
      (topped base asks (t :: u :: t :: values)) := by
  have h := @passes_shuffle owner base asks values form [t] [u] (by simpa using ht)
    (by simpa using hu) (by simpa using ⟨htop, hutop⟩)
  rw [if_neg hform] at h
  exact h

/-- What is expected of the slots once a value of type `t` was stored in slot `k`. -/
def stored (owner : String) (asks : Int → JType → Prop) (k : Int) (t : JType) :
    Int → JType → Prop :=
  fun j u => if j = k then u.Eases owner t else asks j u

theorem isReference_or_prim (ht : t.isDefinite) : t.isReference ∨ ∃ p, t = .prim p := by
  cases t with
  | prim p => exact .inr ⟨p, rfl⟩
  | array _ | object _ | null => exact .inl rfl
  | _ => cases ht

theorem ne_top_of_isDefinite (ht : t.isDefinite) : t ≠ .top := fun h => by
  rw [h] at ht
  cases ht

theorem slotKind_of_isReference (ht : t.isReference) : t.slotKind = .ref := by
  cases t with
  | array _ | object _ | null | uninitialized _ _ => rfl
  | _ => cases ht

/-- On the stack a small integer is as good as any other. -/
theorem valueSuits_computational (owner : String) (t : JType) :
    ValueSuits owner t t.computational := by
  cases t with
  | prim p => cases p <;> exact ⟨by decide, by decide, JType.suits_of_isArray rfl⟩
  | _ => exact .refl owner _

theorem size_of_isDefinite (ht : t.isDefinite) : t.size = 1 ∨ t.size = 2 := by
  rcases isReference_or_prim ht with href | ⟨p, rfl⟩
  · exact .inl (size_of_isReference href).1
  · cases p <;> decide

theorem passes_load (t : JType) (k : Int) (ht : t.isDefinite) (hasks : asks k t) :
    Passes owner (topped base asks values) (Snippet.load t k) (topped base asks (t :: values)) := by
  refine passes_of_run (x := []) (y := [t]) ⟨rfl, rfl, rfl⟩ (by simp)
    (by simpa using ne_top_of_isDefinite ht) (fun i s x' rest hstack hx _ hslots => ?_) values
  cases hx
  rw [cellsOfAll_nil, List.nil_append] at hstack
  have hload (g : JType) (reads : List SlotAccess) (hv : ValueSuits owner t g)
      (hrun : (perform owner (Snippet.load t k) i).run s =
        .ok () ⟨s.frame.push g, s.low, reads, s.writes⟩) :
      ∃ y' s', (perform owner (Snippet.load t k) i).run s = .ok () s' ∧
        s'.frame.stack = cellsOfAll y' ++ rest ∧ List.Forall₂ (ValueSuits owner) [t] y' ∧
        ∀ j u, asks j u → u.Suits owner (s'.frame.slot j) :=
    ⟨[g], _, hrun, by simp [Frame.push, hstack], .cons hv .nil, hslots⟩
  rcases isReference_or_prim ht with href | ⟨p, rfl⟩
  · refine hload _ (s.reads ++ [⟨k, 1⟩]) (loadedRef_suits href (hslots k t hasks)) ?_
    rw [Snippet.load, JType.loadOp, slotKind_of_isReference href]
    rfl
  · refine hload (JType.prim p).computational (s.reads ++ [⟨k, (JType.prim p).slotKind.size⟩])
      (valueSuits_computational owner _) ?_
    cases p <;> rfl

theorem passes_store (t : JType) (k : Int) (ht : t.isDefinite) :
    Passes owner (topped base asks (t :: values)) (Snippet.store t k)
      (topped base (stored owner asks k t) values) := by
  refine passes_of_run (x := [t]) (y := []) ⟨rfl, rfl, rfl⟩
    (by simpa using ne_top_of_isDefinite ht) (by simp)
    (fun i s x' rest hstack hx hrest hslots => ?_) values
  obtain ⟨g, hg, rfl⟩ : ∃ g, ValueSuits owner t g ∧ x' = [g] := by
    cases hx with
    | cons hg htail =>
      cases htail
      exact ⟨_, hg, rfl⟩
  rw [cellsOfAll_cons, cellsOfAll_nil, List.append_nil] at hstack
  obtain ⟨low, hrun⟩ := run_popValue hstack hrest
  have hstore (written : JType) (hwritten : ∀ u : JType, u.Eases owner t → u.Suits owner written)
      (f : JType → Track Unit) (hf : f g = write k written)
      (hperform : perform owner (Snippet.store t k) i = popValue >>= f) :
      ∃ y' s', (perform owner (Snippet.store t k) i).run s = .ok () s' ∧
        s'.frame.stack = cellsOfAll y' ++ rest ∧ List.Forall₂ (ValueSuits owner) [] y' ∧
        ∀ j u, stored owner asks k t j u → u.Suits owner (s'.frame.slot j) := by
    refine ⟨[], ⟨Frame.setSlot ⟨rest, s.frame.locals⟩ k written, low, s.reads,
      s.writes ++ [⟨k, written.size⟩]⟩, ?_, rfl, .nil, fun j u hu => ?_⟩
    · rw [hperform]
      exact bind_ok.2 ⟨_, _, hrun, by rw [hf]; rfl⟩
    · -- a slot holds what was stored, what it held, or nothing usable any more
      unfold stored at hu
      dsimp only
      rcases Frame.slot_setSlot_or ⟨rest, s.frame.locals⟩ k written j with heq | heq <;> rw [heq]
      · split at hu
        · next h =>
          rw [if_pos h]
          exact hwritten u hu
        · next h =>
          rw [if_neg h]
          exact hslots j u hu
      · exact JType.suits_top owner u
  rcases isReference_or_prim ht with href | ⟨p, rfl⟩
  · refine hstore g (fun u hu => hu.suits hg.suits) (write k) rfl ?_
    rw [Snippet.store, JType.storeOp, slotKind_of_isReference href]
    rfl
  · refine hstore (JType.prim p).computational (fun u _ => JType.suits_of_isArray ?_)
      (fun _ => write k (JType.prim p).computational) rfl ?_
    · cases p <;> rfl
    · cases p <;> rfl

theorem elementType_objectArray : JType.objectArray.elementType = .anyObject := by
  decide +kernel

/-- A reference that suits does as well. -/
theorem valueSuits_of_isReference {g : JType} (ht : t.isReference) (hg : g.size ≠ 2)
    (hsuits : t.Suits owner g) : ValueSuits owner t g :=
  ⟨fun h => absurd ((size_of_isReference ht).1.symm.trans h) (by decide), fun _ => hg, hsuits⟩

theorem length_cellsOf_of_isReference (ht : t.isReference) : (Frame.cellsOf t).length = 1 := by
  rw [Frame.length_cellsOf (.inl (size_of_isReference ht).1), (size_of_isReference ht).1]

/-- What is taken out of an array of objects is no array. -/
theorem null_suits_loaded {g : JType} (h : JType.objectArray.Suits owner g) :
    ValueSuits owner .null (loaded g) := by
  have hnull {u : JType} (hu : u.size ≠ 2) (harray : (u.settled owner).isArray = false) :
      ValueSuits owner .null u :=
    valueSuits_of_isReference rfl hu (JType.suits_of_isArray harray)
  cases g with
  | array component =>
    have heq : JType.array component = .objectArray := by
      refine h ?_ rfl
      show JType.objectArray.elementType.isReference
      rw [elementType_objectArray]
      rfl
    rw [heq]
    show ValueSuits owner .null JType.objectArray.elementType
    rw [elementType_objectArray]
    exact hnull (by decide) rfl
  | null => exact .refl owner _
  | _ => exact hnull (by decide : JType.anyObject.size ≠ 2) rfl

theorem passes_loadElement :
    Passes owner (topped base asks (.int :: .objectArray :: values)) (.plain (.arrayLoad .ref))
      (topped base asks (.null :: values)) := by
  refine passes_of_stack (x := [.int, .objectArray]) (y := [.null]) ⟨rfl, rfl, rfl⟩ (by decide)
    (by decide) (fun i s x' rest hstack hx hrest => ?_) values
  obtain ⟨index, array, rfl, hindex, harray⟩ : ∃ index array, x' = [index, array] ∧
      ValueSuits owner .int index ∧ ValueSuits owner .objectArray array := by
    cases hx with
    | cons hindex htail =>
      cases htail with
      | cons harray htail =>
        cases htail
        exact ⟨_, _, rfl, hindex, harray⟩
  rw [cellsOfAll_cons, cellsOfAll_cons, cellsOfAll_nil, List.append_nil,
    List.append_assoc] at hstack
  obtain ⟨low, hrun⟩ := run_pop hstack (n := 1) (hindex.length_cellsOf.trans (by decide))
  obtain ⟨low', hrun'⟩ := run_popValue (g := array)
    (s := ⟨⟨_, s.frame.locals⟩, low, s.reads, s.writes⟩) rfl hrest
  have hperform : perform owner (.plain (.arrayLoad .ref)) i =
      pop 1 >>= fun _ => popValue >>= fun array => push (loaded array) := rfl
  exact ⟨[loaded array], _,
    by rw [hperform]; exact bind_ok.2 ⟨_, _, hrun, bind_ok.2 ⟨_, _, hrun', rfl⟩⟩,
    by simp [Frame.push], .cons (null_suits_loaded harray.suits) .nil⟩

theorem passes_checkCast {name : String} {u : JType} (hu : u.isReference) (ht : t.isReference)
    (hsuits : t.Suits owner (.ofClassName name)) :
    Passes owner (topped base asks (u :: values)) (.type .checkCast name)
      (topped base asks (t :: values)) := by
  refine passes_popPush (x := [u]) (n := 1) (g := .ofClassName name) ?_ ?_ ⟨rfl, rfl, rfl⟩ ?_
    (size_of_isReference ht).2 fun _ => rfl
  · simpa using length_cellsOf_of_isReference hu
  · simpa using (size_of_isReference hu).2
  · refine valueSuits_of_isReference ht ?_ hsuits
    rcases JType.ofClassName_eq name with ⟨_, h⟩ | h <;> rw [h] <;> exact (by decide : 1 ≠ 2)

theorem pushResult_eq (hvoid : t ≠ .void) : pushResult t = push t.computational := by
  unfold pushResult
  split
  · exact absurd rfl hvoid
  · rfl

/-- A call of a static method. -/
theorem passes_invokeStatic {className name descriptor : String} {signature : Signature}
    (hparse : Signature.parse descriptor = .ok signature) (hvoid : signature.result ≠ .void)
    {x : List JType} (hx : (cellsOfAll x).length = signature.argumentsSize)
    (husable : ∀ t ∈ x, t ≠ .top) :
    Passes owner (topped base asks (x ++ values)) (Snippet.invoke .static className name descriptor)
      (topped base asks (signature.result.computational :: values)) := by
  refine passes_popPush hx husable ⟨rfl, rfl, rfl⟩ (.refl owner _)
    (computational_usable (signature_usable hparse).1) fun i => ?_
  have hcall : perform owner (Snippet.invoke .static className name descriptor) i =
      call owner .static name descriptor := rfl
  rw [hcall, popPush, ← pushResult_eq hvoid]
  unfold call
  rw [hparse]
  rfl

/-- A call of a method without arguments on an object. -/
theorem passes_invokeVirtual {className name descriptor : String} {t u : JType}
    (hparse : Signature.parse descriptor = .ok ⟨[], t⟩) (hvoid : t ≠ .void) (hu : u.isReference) :
    Passes owner (topped base asks (u :: values))
      (Snippet.invoke .virtual className name descriptor)
      (topped base asks (t :: values)) := by
  have htop : t ≠ .top := (signature_usable hparse).1
  refine passes_of_stack (x := [u]) (y := [t]) ⟨rfl, rfl, rfl⟩
    (by simpa using (size_of_isReference hu).2) (by simpa using htop)
    (fun i s x' rest hstack hx hrest => ?_) values
  obtain ⟨receiver, rfl⟩ : ∃ receiver, x' = [receiver] := by
    cases hx with
    | cons _ htail =>
      cases htail
      exact ⟨_, rfl⟩
  rw [cellsOfAll_cons, cellsOfAll_nil, List.append_nil] at hstack
  obtain ⟨low, hrun⟩ := run_pop (x := []) hstack (n := 0) rfl
  obtain ⟨low', hrun'⟩ := run_popValue (g := receiver)
    (s := ⟨⟨_, s.frame.locals⟩, low, s.reads, s.writes⟩) rfl hrest
  -- a call without arguments takes off the receiver alone
  have hperform : perform owner (Snippet.invoke .virtual className name descriptor) i =
      pop 0 >>= fun _ => popValue >>= fun _ => pushResult t := by
    have hcall : perform owner (Snippet.invoke .virtual className name descriptor) i =
        call owner .virtual name descriptor := rfl
    rw [hcall]
    unfold call
    rw [hparse]
    rfl
  rw [hperform, pushResult_eq hvoid]
  exact ⟨[t.computational], _, bind_ok.2 ⟨_, _, hrun, bind_ok.2 ⟨_, _, hrun', rfl⟩⟩,
    by simp [Frame.push], .cons (valueSuits_computational owner t) .nil⟩

theorem parse_boxDescriptor (p : Primitive) :
    Signature.parse p.boxing.boxDescriptor = .ok ⟨[.prim p], .object p.wrapper⟩ := by
  cases p <;> decide +kernel

theorem parse_unboxDescriptor (p : Primitive) :
    Signature.parse p.boxing.unboxDescriptor = .ok ⟨[], .prim p⟩ := by
  cases p <;> decide +kernel

/-! ### Wrappers -/

/-- What is no array does as well as any reference. -/
theorem null_yields (ht : t.isReference) :
    Yields owner (topped base asks (.null :: values)) (topped base asks (t :: values)) := by
  intro f hf
  refine ⟨?_, hf.slots⟩
  have hstack := hf.stack
  unfold topped at hstack ⊢
  rw [cellsOfAll_cons, List.append_assoc] at hstack ⊢
  obtain ⟨g, rest, heq, hg, hrest⟩ := hstack.pop JType.noConfusion
  rw [heq]
  refine hrest.push (valueSuits_of_isReference ht (hg.narrow (by decide)) ?_)
    (size_of_isReference ht).2
  refine JType.suits_of_isArray ?_
  rw [← Bool.not_eq_true]
  intro harray
  have hnull := hg.suits rfl harray
  rw [hnull] at harray
  cases harray

section Sequences

variable (hmeets : ∀ k t, low k t → asks k t)

include hmeets

/-- A boxed value is a reference. -/
theorem runs_box (t : JType) (ht : t.isDefinite) :
    ∃ u, u.isReference ∧
      Runs owner low (topped base asks (t :: values)) (Snippet.box t)
        (topped base asks (u :: values)) := by
  rcases isReference_or_prim ht with href | ⟨p, rfl⟩
  · refine ⟨t, href, ?_⟩
    have hnone : t.boxing? = none := by
      cases t with
      | prim p => cases href
      | _ => rfl
    rw [Snippet.box, hnone]
    exact .refl hmeets
  · refine ⟨.object p.wrapper, rfl, .single hmeets ?_ hmeets⟩
    refine passes_invokeStatic (x := [.prim p]) (parse_boxDescriptor p) JType.noConfusion ?_
      (by simp)
    cases p <;> rfl

/-- An object that is no array can be taken for a value of any type. -/
theorem runs_unbox (t : JType) (ht : t.isDefinite) :
    Runs owner low (topped base asks (.null :: values)) (Snippet.unbox t)
      (topped base asks (t :: values)) := by
  -- a reference is cast, where its class is not known anyway; a number is taken out of its wrapper
  rcases isReference_or_prim ht with href | ⟨p, rfl⟩
  · have hnone : t.boxing? = none := by
      cases t with
      | prim p => cases href
      | _ => rfl
    rw [Snippet.unbox, hnone]
    dsimp only
    split
    · exact .nil hmeets (null_yields href)
    · refine .single hmeets (passes_checkCast rfl href ?_) hmeets
      cases t with
      | array component =>
        have heq : JType.ofClassName (JType.array component).internalName = .array component := by
          simp [JType.ofClassName, JType.internalName]
        rw [heq]
        exact .refl owner _
      | object name => exact JType.suits_of_holdsReferences rfl
      | null => exact JType.suits_of_isArray rfl
      | prim p => cases href
      | _ => cases ht
  · refine .cons hmeets (passes_checkCast rfl (t := .object p.wrapper) rfl
      (JType.suits_of_holdsReferences rfl)) (.single hmeets ?_ hmeets)
    exact passes_invokeVirtual (parse_unboxDescriptor p) JType.noConfusion rfl

/-! ### The array of results -/

theorem runs_fetch (index : Nat) (t : JType) (ht : t.isDefinite) :
    Runs owner low (topped base asks (.objectArray :: values)) (Outline.fetch index t)
      (topped base asks (t :: values)) :=
  (Runs.cons hmeets (passes_pushInt _) (.single hmeets passes_loadElement hmeets)).append
    (runs_unbox hmeets t ht)

theorem runs_raiseArray (t : JType) (ht : t.isDefinite) :
    Runs owner low (topped base asks (t :: .objectArray :: values)) (Outline.raiseArray t)
      (topped base asks (.objectArray :: t :: values)) := by
  have hlength := Frame.length_cellsOf (size_of_isDefinite ht)
  have htop := ne_top_of_isDefinite ht
  unfold Outline.raiseArray
  split
  · next hsize =>
    refine .cons hmeets (passes_tuck .dup2X1 (by decide) (hlength.trans hsize) htop rfl
      JType.noConfusion) (.single hmeets (passes_drop (x := [t]) (n := 2) ?_ ?_ ⟨rfl, rfl, rfl⟩
        fun _ => rfl) hmeets)
    · simpa using hlength.trans hsize
    · simpa using htop
  · next hsize =>
    have hone : t.size = 1 := (size_of_isDefinite ht).resolve_right hsize
    exact .single hmeets (passes_swap (hlength.trans hone) htop rfl JType.noConfusion) hmeets

theorem runs_unpackProduced (index : Nat) (produced : List JType) (hne : produced ≠ [])
    (hdefinite : ∀ t ∈ produced, t.isDefinite) :
    Runs owner low (topped base asks (.objectArray :: values))
      (Outline.unpackProduced index produced)
      (topped base asks (produced.reverse ++ values)) := by
  induction produced generalizing index values with
  | nil => exact absurd rfl hne
  | cons t rest ih =>
    have ht := hdefinite t List.mem_cons_self
    cases rest with
    | nil => exact runs_fetch hmeets index t ht
    | cons u rest =>
      have hrest := @ih (t :: values) (index + 1) (List.cons_ne_nil u rest)
        fun t ht => hdefinite t (List.mem_cons_of_mem _ ht)
      rw [List.reverse_cons (a := t), List.append_assoc]
      exact ((Runs.cons hmeets (passes_dup rfl JType.noConfusion)
        (runs_fetch hmeets index t ht)).append (runs_raiseArray hmeets t ht)).append hrest

end Sequences

/-- What is expected of the slots once values were stored one after the other. -/
def restored (owner : String) (asks : Int → JType → Prop) : List (Int × JType) → Int → JType → Prop
  | [] => asks
  | e :: rest => restored owner (stored owner asks e.1 e.2) rest

theorem stored_meets (hmeets : ∀ k t, low k t → asks k t) {k : Int}
    (hlow : ∀ u, low k u → u.Eases owner t) :
    ∀ j u, low j u → stored owner asks k t j u := by
  intro j u hu
  unfold stored
  split
  · next h => exact hlow u (h ▸ hu)
  · exact hmeets j u hu

theorem restored_meets (hmeets : ∀ k t, low k t → asks k t) {l : List (Int × JType)}
    (hlow : ∀ e ∈ l, ∀ u, low e.1 u → u.Eases owner e.2) :
    ∀ j u, low j u → restored owner asks l j u := by
  induction l generalizing asks with
  | nil => exact hmeets
  | cons e rest ih =>
    exact ih (stored_meets hmeets (hlow e List.mem_cons_self))
      fun e he => hlow e (List.mem_cons_of_mem _ he)

theorem runs_unpackWritten (keep : Bool) (written : List (Int × JType)) (hne : written ≠ [])
    (hdefinite : ∀ e ∈ written, e.2.isDefinite) (hmeets : ∀ k t, low k t → asks k t)
    (hlow : ∀ e ∈ written, ∀ u, low e.1 u → u.Eases owner e.2) (index : Nat) :
    Runs owner low (topped base asks (.objectArray :: values))
      (Outline.unpackWritten keep index written)
      (topped base (restored owner asks written)
        (if keep then .objectArray :: values else values)) := by
  induction written generalizing asks index with
  | nil => exact absurd rfl hne
  | cons e rest ih =>
    obtain ⟨k, t⟩ := e
    have ht : t.isDefinite := hdefinite _ List.mem_cons_self
    have hstored := stored_meets hmeets (hlow _ List.mem_cons_self)
    -- the array is used up by the last value, unless it is kept
    have hone (values : List JType) : Runs owner low (topped base asks (.objectArray :: values))
        (Outline.fetch index t ++ [Snippet.store t k])
        (topped base (stored owner asks k t) values) :=
      (runs_fetch hmeets index t ht).append (.single hmeets (passes_store t k ht) hstored)
    have hkept : Runs owner low (topped base asks (.objectArray :: values))
        (.plain (.shuffle .dup) :: (Outline.fetch index t ++ [Snippet.store t k]))
        (topped base (stored owner asks k t) (.objectArray :: values)) :=
      .cons hmeets (passes_dup rfl JType.noConfusion) (hone _)
    unfold Outline.unpackWritten restored
    cases rest with
    | nil =>
      cases keep with
      | true => simpa [Outline.unpackWritten, restored] using hkept
      | false => simpa [Outline.unpackWritten, restored] using hone values
    | cons e' rest =>
      have hrest := ih (List.cons_ne_nil e' rest)
        (fun e he => hdefinite e (List.mem_cons_of_mem _ he)) hstored
        (fun e he => hlow e (List.mem_cons_of_mem _ he)) (index + 1)
      simpa using hkept.append hrest

/-- **Taking the array of results apart.** -/
theorem runs_unpack (c : Cut) (hproduced : ∀ t ∈ c.produced, t.isDefinite)
    (hwritten : ∀ e ∈ c.written.toList, e.2.isDefinite) (hmeets : ∀ k t, low k t → asks k t)
    (hlow : ∀ e ∈ c.written.toList, ∀ u, low e.1 u → u.Eases owner e.2) :
    Runs owner low (topped base asks [.objectArray]) (Outline.unpack c)
      (topped base (restored owner asks c.written.toList) c.produced.reverse) := by
  have hsize : c.written.size = 0 ↔ c.written.toList = [] := List.length_eq_zero_iff
  have hmeets' := restored_meets hmeets hlow
  -- the written locals first, and the produced values if there are any
  have hlocals : c.written.toList ≠ [] → Runs owner low (topped base asks [.objectArray])
      (Outline.unpackWritten (!c.produced.isEmpty) c.produced.length c.written.toList)
      (topped base (restored owner asks c.written.toList)
        (if !c.produced.isEmpty then [.objectArray] else [])) := fun hne =>
    runs_unpackWritten _ _ hne hwritten hmeets hlow _
  have hvalues : c.produced ≠ [] →
      Runs owner low (topped base (restored owner asks c.written.toList) [.objectArray])
        (Outline.unpackProduced 0 c.produced)
        (topped base (restored owner asks c.written.toList) c.produced.reverse) := fun hne => by
    simpa using @runs_unpackProduced owner low base _ [] hmeets' 0 c.produced hne hproduced
  unfold Outline.unpack
  by_cases hnone : c.produced = []
  · rw [hnone] at hlocals ⊢
    by_cases hempty : c.written.toList = []
    · have hdrop : Runs owner low (topped base asks [.objectArray]) [.plain .pop]
          (topped base asks []) :=
        .single hmeets (passes_drop (x := [.objectArray]) (n := 1) rfl
          (by decide) ⟨rfl, rfl, rfl⟩ fun _ => rfl) hmeets
      simpa [hempty, hsize, Outline.unpackWritten, Outline.unpackProduced, restored] using hdrop
    · simpa [hempty, hsize, Outline.unpackProduced] using hlocals hempty
  · by_cases hempty : c.written.toList = []
    · rw [hempty] at hvalues ⊢
      simpa [hnone, Outline.unpackWritten, restored] using hvalues hnone
    · simpa [hnone] using (hlocals hempty).append (by simpa [hnone] using hvalues hnone)

/-! ### The call -/

/-- Loading one value after the other. -/
theorem runs_loads (hmeets : ∀ k t, low k t → asks k t) (l : List (JType × Int))
    (hl : ∀ e ∈ l, e.1.isDefinite ∧ asks e.2 e.1) :
    Runs owner low (topped base asks values) (l.map fun e => Snippet.load e.1 e.2)
      (topped base asks ((l.map (·.1)).reverse ++ values)) := by
  induction l generalizing values with
  | nil => exact .refl hmeets
  | cons e rest ih =>
    obtain ⟨hdefinite, hasks⟩ := hl e List.mem_cons_self
    have hrest := @ih (e.1 :: values) fun e he => hl e (List.mem_cons_of_mem _ he)
    rw [List.map_cons, List.map_cons, List.reverse_cons, List.append_assoc]
    exact .cons hmeets (passes_load e.1 e.2 hdefinite hasks) hrest

theorem length_cellsOfAll_reverse (types : List JType) (h : ∀ t ∈ types, t.isDefinite) :
    (cellsOfAll types.reverse).length = JType.sizeOfAll types := by
  induction types with
  | nil => rfl
  | cons t rest ih =>
    have hrest := ih fun u hu => h u (List.mem_cons_of_mem _ hu)
    have ht := Frame.length_cellsOf (size_of_isDefinite (h t List.mem_cons_self))
    rw [List.reverse_cons, cellsOfAll_append, List.length_append, hrest, cellsOfAll_cons,
      cellsOfAll_nil, List.append_nil, ht, Nat.add_comm]
    rfl

theorem sizeOfAll_passed (types : List JType) :
    JType.sizeOfAll (types.map JType.passed) = JType.sizeOfAll types := by
  induction types with
  | nil => rfl
  | cons t rest ih =>
    have ht : t.passed.size = t.size := by cases t <;> rfl
    show t.passed.size + JType.sizeOfAll (rest.map JType.passed) = t.size + JType.sizeOfAll rest
    rw [ih, ht]

/-- **Calling the extracted routine.** -/
theorem runs_call (c : Cut) (x : Routine)
    (hparse : Signature.parse x.descriptor = .ok ⟨c.arguments.map JType.passed, .objectArray⟩)
    (hconsumed : ∀ t ∈ c.consumed, t.isDefinite)
    (hread : ∀ e ∈ c.read.toList, e.2.isDefinite ∧ asks e.1 e.2)
    (hmeets : ∀ k t, low k t → asks k t) :
    Runs owner low (topped base asks c.consumed.reverse) (Outline.call c x)
      (topped base asks [.objectArray]) := by
  have hloads := @runs_loads owner low base asks c.consumed.reverse hmeets
    (c.read.toList.map fun e => (e.2, e.1)) (by
      simp only [List.mem_map]
      rintro e ⟨e', he', rfl⟩
      exact hread e' he')
  -- the arguments lie on the stack in the order of the descriptor, the last one on top
  have hdefinite : ∀ t ∈ c.arguments, t.isDefinite := by
    intro t ht
    rcases List.mem_append.1 ht with ht | ht
    · exact hconsumed t ht
    · obtain ⟨e, he, rfl⟩ := List.mem_map.1 ht
      exact (hread e he).1
  have hinvoke := @passes_invokeStatic owner base asks [] x.owner x.name x.descriptor _ hparse
    JType.noConfusion c.arguments.reverse ?_ fun t ht =>
      ne_top_of_isDefinite (hdefinite t (List.mem_reverse.1 ht))
  · rw [List.append_nil] at hinvoke
    unfold Outline.call
    refine Runs.append ?_ (.single hmeets hinvoke hmeets)
    rw [Cut.arguments, List.reverse_append]
    simpa [List.map_map, Function.comp_def] using hloads
  · rw [length_cellsOfAll_reverse _ hdefinite]
    exact (sizeOfAll_passed c.arguments).symm

/-! ### Inside the extracted routine -/

theorem restored_of_notMem {l : List (Int × JType)} {k : Int} (h : ∀ e ∈ l, e.1 ≠ k) (u : JType) :
    restored owner asks l k u ↔ asks k u := by
  induction l generalizing asks with
  | nil => rfl
  | cons e rest ih =>
    rw [restored, ih fun e he => h e (List.mem_cons_of_mem _ he), stored,
      if_neg (h e List.mem_cons_self).symm]

theorem restored_of_mem {l : List (Int × JType)} (hnodup : (l.map (·.1)).Nodup) {e : Int × JType}
    (he : e ∈ l) (u : JType) : restored owner asks l e.1 u ↔ u.Eases owner e.2 := by
  induction l generalizing asks with
  | nil => cases he
  | cons e' rest ih =>
    rw [List.map_cons, List.nodup_cons] at hnodup
    rw [restored]
    rcases List.mem_cons.1 he with rfl | he
    · rw [restored_of_notMem fun e'' he'' heq => hnodup.1 (List.mem_map.2 ⟨e'', he'', heq⟩), stored,
        if_pos rfl]
    · exact ih hnodup.2 he

/-- Where the copies of arguments go. -/
def copied (p : SlotPlan) : List (Int × JType) :=
  p.copies.map fun e => ((e.2.2 : Int), e.1)

/-- Moving arguments to wider slots. -/
theorem runs_copies (copies : List (JType × Nat × Nat))
    (hcopies : ∀ e ∈ copies, e.1.isDefinite ∧ asks e.2.1 e.1 ∧ ∀ e' ∈ copies, e'.2.2 ≠ e.2.1) :
    Runs owner (fun _ _ => False) (topped base asks values)
      (copies.flatMap fun e => [Snippet.load e.1 e.2.1, Snippet.store e.1 e.2.2])
      (topped base (restored owner asks (copies.map fun e => ((e.2.2 : Int), e.1))) values) := by
  induction copies generalizing asks with
  | nil => exact .refl fun _ _ h => h.elim
  | cons e rest ih =>
    obtain ⟨hdefinite, hasks, happart⟩ := hcopies e List.mem_cons_self
    refine .cons (fun _ _ h => h.elim) (passes_load _ _ hdefinite hasks)
      (.cons (fun _ _ h => h.elim) (passes_store _ _ hdefinite) (ih fun e' he' => ?_))
    obtain ⟨hdefinite', hasks', hapart'⟩ := hcopies e' (List.mem_cons_of_mem _ he')
    refine ⟨hdefinite', ?_, fun e'' he'' => hapart' e'' (List.mem_cons_of_mem _ he'')⟩
    have hne := hapart' e List.mem_cons_self
    rw [stored, if_neg (by omega)]
    exact hasks'

/-- **Unloading the arguments.** -/
theorem runs_prologue (c : Cut) (p : SlotPlan)
    (hcopies : ∀ e ∈ p.copies, e.1.isDefinite ∧ asks e.2.1 e.1 ∧ ∀ e' ∈ p.copies, e'.2.2 ≠ e.2.1)
    (hconsumed : ∀ e ∈ c.consumed.zip (SlotPlan.arrivals 0 c.consumed).1, e.1.isDefinite ∧
      asks e.2 e.1 ∧ ∀ e' ∈ p.copies, e'.2.2 ≠ e.2) :
    Runs owner (fun _ _ => False) (topped base asks []) (Outline.prologue c p)
      (topped base (restored owner asks (copied p)) c.consumed.reverse) := by
  refine (runs_copies p.copies hcopies).append ?_
  have hloads := @runs_loads owner (fun _ _ => False) base (restored owner asks (copied p)) []
    (fun _ _ h => h.elim)
    ((c.consumed.zip (SlotPlan.arrivals 0 c.consumed).1).map fun e => (e.1, (e.2 : Int))) ?_
  · have hlength : c.consumed.length ≤ (SlotPlan.arrivals 0 c.consumed).1.length := by simp
    rw [List.map_map, List.map_map, List.append_nil] at hloads
    rwa [show (c.consumed.zip (SlotPlan.arrivals 0 c.consumed).1).map
      ((fun e : JType × Int => e.1) ∘ fun e => (e.1, (e.2 : Int))) = c.consumed from
        List.map_fst_zip hlength] at hloads
  · intro moved hmoved
    obtain ⟨e, he, rfl⟩ := List.mem_map.1 hmoved
    obtain ⟨hdefinite, hasks, happart⟩ := hconsumed e he
    refine ⟨hdefinite, (restored_of_notMem ?_ _).2 hasks⟩
    intro target htarget
    obtain ⟨e', he', rfl⟩ := List.mem_map.1 htarget
    exact fun heq => happart e' he' (Int.ofNat.inj heq)

theorem passes_storeElement {u : JType} (hu : u.isReference) :
    Passes owner (topped base asks (u :: .int :: .objectArray :: values))
      (.plain (.arrayStore .ref))
      (topped base asks values) := by
  refine passes_drop (x := [u, .int, .objectArray]) (n := 3) ?_ ?_ ⟨rfl, rfl, rfl⟩ fun _ => rfl
  · simp only [cellsOfAll_cons, cellsOfAll_nil, List.length_append,
      length_cellsOf_of_isReference hu]
    rfl
  · simp only [List.mem_cons, List.not_mem_nil, or_false]
    rintro t (rfl | rfl | rfl)
    · exact (size_of_isReference hu).2
    · exact JType.noConfusion
    · exact JType.noConfusion

section Packing

variable {low : Int → JType → Prop} (hmeets : ∀ k t, low k t → asks k t)

include hmeets

theorem runs_packProduced (index : Nat) (t : JType) (ht : t.isDefinite) :
    Runs owner low (topped base asks (.objectArray :: t :: values))
      (Outline.packProduced index t) (topped base asks (.objectArray :: values)) := by
  have hlength := Frame.length_cellsOf (size_of_isDefinite ht)
  have htop := ne_top_of_isDefinite ht
  -- the array is put below the value first, so that it is there when the value has been boxed
  obtain ⟨u, hu, hbox⟩ :=
    @runs_box owner low base asks (.objectArray :: .objectArray :: values) hmeets t ht
  have hput : Runs owner low (topped base asks (u :: .objectArray :: .objectArray :: values))
      [Snippet.pushInt (Int32.ofNat index), .plain (.shuffle .swap), .plain (.arrayStore .ref)]
      (topped base asks (.objectArray :: values)) :=
    .cons hmeets (passes_pushInt _) (.cons hmeets (passes_swap rfl JType.noConfusion
      (length_cellsOf_of_isReference hu) (size_of_isReference hu).2)
      (.single hmeets (passes_storeElement hu) hmeets))
  refine Runs.append (Runs.append ?_ hbox) hput
  split
  · -- a value of two cells is brought up by two rotations, the second one leaving an array too many
    next hsize =>
    have htuck (values : List JType) :
        Passes owner (topped base asks (.objectArray :: t :: values)) (.plain (.shuffle .dupX2))
          (topped base asks (.objectArray :: t :: .objectArray :: values)) :=
      passes_tuck .dupX2 (by decide) rfl JType.noConfusion (hlength.trans hsize) htop
    exact .cons hmeets (htuck values) (.cons hmeets (htuck _) (.single hmeets
      (passes_drop (x := [.objectArray]) (n := 1) rfl (by decide) ⟨rfl, rfl, rfl⟩ fun _ => rfl)
      hmeets))
  · next hsize =>
    have hone := hlength.trans ((size_of_isDefinite ht).resolve_right hsize)
    exact .cons hmeets (passes_tuck .dupX1 (by decide) rfl JType.noConfusion hone htop)
      (.single hmeets (passes_swap rfl JType.noConfusion hone htop) hmeets)

theorem runs_packAllProduced (l : List (JType × Nat)) (hl : ∀ e ∈ l, e.1.isDefinite) :
    Runs owner low (topped base asks (.objectArray :: (l.map (·.1) ++ values)))
      (l.flatMap fun e => Outline.packProduced e.2 e.1)
      (topped base asks (.objectArray :: values)) := by
  induction l with
  | nil => exact .refl hmeets
  | cons e rest ih =>
    exact (runs_packProduced hmeets e.2 e.1 (hl e List.mem_cons_self)).append
      (ih fun e he => hl e (List.mem_cons_of_mem _ he))

theorem runs_packWritten (index : Nat) (t : JType) (k : Int) (ht : t.isDefinite)
    (hasks : asks k t) :
    Runs owner low (topped base asks (.objectArray :: values))
      (Outline.packWritten index t k) (topped base asks (.objectArray :: values)) := by
  obtain ⟨u, hu, hbox⟩ :=
    @runs_box owner low base asks (.int :: .objectArray :: .objectArray :: values) hmeets t ht
  refine Runs.append (Runs.append ?_ hbox) (.single hmeets (passes_storeElement hu) hmeets)
  exact .cons hmeets (passes_dup rfl JType.noConfusion) (.cons hmeets (passes_pushInt _)
    (.single hmeets (passes_load t k ht hasks) hmeets))

/-- **Packing the results**, up to the return. -/
theorem runs_epilogue (c : Cut) (p : SlotPlan) (hproduced : ∀ t ∈ c.produced, t.isDefinite)
    (hwritten : ∀ e ∈ c.written.toList, e.2.isDefinite ∧ asks (p.slot e.1) e.2) :
    ∃ insns, Outline.epilogue c p = insns ++ [.plain (.returnValue .ref)] ∧
      Runs owner low (topped base asks c.produced.reverse) insns
        (topped base asks [.objectArray]) := by
  -- the values are packed from the top of the stack down, the slots in any order
  have hproduce : Runs owner low (topped base asks (.objectArray :: c.produced.reverse))
      (c.produced.zipIdx.reverse.flatMap fun e => Outline.packProduced e.2 e.1)
      (topped base asks [.objectArray]) := by
    have h := @runs_packAllProduced owner base asks [] low hmeets c.produced.zipIdx.reverse
      fun e he => hproduced e.1 (List.fst_mem_of_mem_zipIdx (List.mem_reverse.1 he))
    rwa [List.map_reverse, List.zipIdx_map_fst, List.append_nil] at h
  have hwrite (l : List ((Int × JType) × Nat)) (hl : ∀ e ∈ l, e.1 ∈ c.written.toList) :
      Runs owner low (topped base asks [.objectArray])
        (l.flatMap fun e => Outline.packWritten (c.produced.length + e.2) e.1.2 (p.slot e.1.1))
        (topped base asks [.objectArray]) := by
    induction l with
    | nil => exact .refl hmeets
    | cons e rest ih =>
      obtain ⟨hdefinite, hasks⟩ := hwritten e.1 (hl e List.mem_cons_self)
      exact (runs_packWritten hmeets _ _ _ hdefinite hasks).append
        (ih fun e he => hl e (List.mem_cons_of_mem _ he))
  refine ⟨_, rfl, Runs.append (Runs.append ?_ hproduce)
    (hwrite _ fun e he => List.fst_mem_of_mem_zipIdx he)⟩
  refine .cons hmeets (passes_pushInt _) (.single hmeets ?_ hmeets)
  have hname : JType.arrayOf (.ofClassName JType.objectClass) = .objectArray := by
    decide +kernel
  refine passes_popPush (x := [.int]) (n := 1) rfl (by decide) ⟨rfl, rfl, rfl⟩ (.refl owner _)
    JType.noConfusion fun _ => ?_
  rw [← hname]
  rfl

end Packing

/-- Returning the array of results. -/
theorem execute_return {f : Frame} (hf : (topped base asks [.objectArray]).Fits owner f) (i : Int) :
    ∃ after effect, execute owner f (.plain (.returnValue .ref)) i = (after, .ok effect) := by
  have hstack := hf.stack
  unfold topped at hstack
  obtain ⟨x', rest, hcells, hx, hrest⟩ := hstack.popAll (by decide)
  obtain ⟨g, rfl⟩ : ∃ g, x' = [g] := by
    cases hx with
    | cons _ htail =>
      cases htail
      exact ⟨_, rfl⟩
  rw [cellsOfAll_cons, cellsOfAll_nil, List.append_nil] at hcells
  obtain ⟨low, hrun⟩ := run_popValue (s := ⟨f, f.depth, [], []⟩) hcells fun u below heq => by
    rw [heq] at hrest
    exact hrest.head_size
  have hperform : (perform owner (.plain (.returnValue .ref)) i).run ⟨f, f.depth, [], []⟩ =
      .ok () ⟨⟨rest, f.locals⟩, low, [], []⟩ := bind_ok.2 ⟨_, _, hrun, rfl⟩
  exact ⟨_, _, by rw [execute, hperform]⟩

end Form

end Outliner
