import Outliner.Proofs.Abreast

/-!
# One step is local

The effect of an instruction says how many cells it takes off, how many it leaves in their place and
which slots it writes. `Tracker.step_local` says that this is all there is to it: the cells further
down and the other slots stay as they are, and the instruction does the same on a stack that lacks
the cells further down. There is one exception, which is a matter of types only. A constructor that
is run changes the type of its object wherever the object is known (`Tracker.settle`).

That the cells further down do not matter is not plain from the effect alone. Taking a value off
means to look at the cell under the topmost one, to see whether the two belong together. If they do,
both are taken off and counted; if not, it makes no difference that there is a cell
(`Frame.pop?_append`).

An instruction is a program, and what is shown for the actions it is made of (`Tracker.LocalFrom`)
is put together along the program. The state with more cells below is `Tracker.State.over`.
-/

namespace Outliner

/-! ### Writes -/

/-- **The slots that a write can change in a frame**: its own, the next one if it is of a wide
value, and the one before if that holds a wide value, whose second half is overwritten. -/
def SlotAccess.Touches (w : SlotAccess) (f : Frame) (index : Int) : Prop :=
  index = w.slot ∨ (w.size = 2 ∧ index = Word.wrap (w.slot + 1)) ∨
    (index = Word.wrap (w.slot - 1) ∧ (f.slot index).size = 2)

namespace Frame

variable {f g : Frame} {t : JType}

/-- What a store does to the entry of each slot. -/
theorem get?_setSlot (f : Frame) (index : Int) (t : JType) (slot : Int) :
    (f.setSlot index t).locals.get? slot =
      if t.size = 2 ∧ slot = Word.wrap (index + 1) then some .top
      else if slot = index then some t
      else if slot = Word.wrap (index - 1) ∧ (f.slot slot).size = 2 then some .top
      else f.locals.get? slot := by
  unfold setSlot Frame.slot
  cases hprev : f.locals.get? (Word.wrap (index - 1)) with
  | none => grind [SlotMap.get?_insert, JType.size]
  | some prev => grind [SlotMap.get?_insert]

theorem get?_setSlot_of_not_touches {index slot : Int}
    (h : ¬ SlotAccess.Touches ⟨index, t.size⟩ f slot) :
    (f.setSlot index t).locals.get? slot = f.locals.get? slot := by
  unfold SlotAccess.Touches at h
  push Not at h
  obtain ⟨hself, hnext, hbefore⟩ := h
  rw [get?_setSlot, if_neg fun hwide => hnext hwide.1 hwide.2, if_neg hself,
    if_neg fun hprev => hbefore hprev.1 hprev.2]

/-- **The slots of a frame arise from those of another one** by stores and by the running of
constructors. Nothing is said about the stacks. -/
inductive Revises (f : Frame) : Frame → Prop where
  | refl : Revises f f
  | restack {g : Frame} (stack : List JType) (before : Revises f g) : Revises f ⟨stack, g.locals⟩
  | store {g : Frame} (index : Int) (t : JType) (before : Revises f g) :
    Revises f (g.setSlot index t)
  | construct {g : Frame} (name : String) (site : Int) (className : String)
    (before : Revises f g) :
    Revises f (g.replace (.uninitialized name site) (.ofClassName className))

theorem Revises.of_locals (h : g.locals = f.locals) : f.Revises g := by
  obtain ⟨stack, locals⟩ := g
  obtain rfl : locals = f.locals := h
  exact .restack stack .refl

theorem Revises.trans {k : Frame} (h : f.Revises g) (h' : g.Revises k) : f.Revises k := by
  induction h' with
  | refl => exact h
  | restack stack _ ih => exact ih.restack stack
  | store index t _ ih => exact ih.store index t
  | construct name site className _ ih => exact ih.construct name site className

/-! ### Taking values off -/

/-- Taking a value off lowers the stack and leaves the slots as they are. -/
theorem of_pop? (h : f.pop? = some (t, g)) : g.depth < f.depth ∧ g.locals = f.locals := by
  unfold pop? at h
  split at h
  · cases h
  · next hstack =>
    split at h <;> cases h <;> simp only [depth, hstack, List.length_cons, and_true] <;> omega
  · next hstack =>
    cases h
    simp [depth, hstack]

/-- An object that is not initialized is taken off as the topmost cell. -/
theorem head?_of_pop? (h : f.pop? = some (t, g)) (name : String) (site : Int) :
    f.stack.head? = some (.uninitialized name site) ↔ t = .uninitialized name site := by
  unfold pop? at h
  split at h
  · cases h
  · next hstack =>
    split at h
    · next hwide =>
      cases h
      have hne : t ≠ .uninitialized name site := by
        rintro rfl
        cases hwide
      simp [hstack, hne]
    · cases h
      simp [hstack]
  · next hstack =>
    cases h
    simp [hstack]

/-- **Taking a value off does not depend on the cells it leaves.** -/
theorem pop?_append {top base : List JType} {locals : SlotMap JType}
    (h : pop? ⟨top ++ base, locals⟩ = some (t, g)) (hbase : base.length ≤ g.depth) :
    ∃ rest, pop? ⟨top, locals⟩ = some (t, ⟨rest, locals⟩) ∧ g = ⟨rest ++ base, locals⟩ := by
  cases top with
  | nil => exact absurd (of_pop? h).1 (Nat.not_lt.2 hbase)
  | cons u top =>
    by_cases hu : u = .top
    · -- the cell under it is looked at, and may be the first one of the base
      subst hu
      cases top with
      | nil =>
        cases base with
        | nil =>
          cases h
          exact ⟨[], rfl, rfl⟩
        | cons v base =>
          simp only [pop?, List.cons_append, List.nil_append] at h
          split at h
          · -- the value would reach below
            cases h
            exact absurd hbase (Nat.not_succ_le_self _)
          · cases h
            exact ⟨[], rfl, rfl⟩
      | cons v top =>
        simp only [pop?, List.cons_append] at h ⊢
        split at h
        · next hwide =>
          cases h
          exact ⟨top, by rw [if_pos hwide], rfl⟩
        · next hsingle =>
          cases h
          exact ⟨v :: top, by rw [if_neg hsingle], rfl⟩
    · have hpop (below : List JType) :
          pop? ⟨u :: below, locals⟩ = some (u, ⟨below, locals⟩) := by
        cases u with
        | top => exact absurd rfl hu
        | _ => rfl
      rw [List.cons_append, hpop] at h
      cases h
      exact ⟨top, hpop top, rfl⟩

end Frame

/-! ### Constructors -/

/-- The object whose constructor an instruction runs, by its class and where it was created. It lies
right below the arguments. -/
def Instruction.constructed? (f : Frame) : Instruction → Option (String × Int)
  | .method (.invoke .special) _ "<init>" descriptor _ =>
    match Signature.parse descriptor with
    | .error _ => none
    | .ok signature =>
      match f.stack[signature.argumentsSize]? with
      | some (.uninitialized name site) => some (name, site)
      | _ => none
  | _ => none

theorem Instruction.constructed?_eq_some_iff {insn : Instruction} {f : Frame} {name : String}
    {site : Int} :
    insn.constructed? f = some (name, site) ↔
      ∃ owner descriptor onInterface signature,
        insn = .method (.invoke .special) owner "<init>" descriptor onInterface ∧
        Signature.parse descriptor = .ok signature ∧
        f.stack[signature.argumentsSize]? = some (.uninitialized name site) := by
  constructor
  · intro h
    unfold constructed? at h
    split at h
    · next owner descriptor onInterface =>
      split at h
      · cases h
      · next signature hparse =>
        split at h
        · next hcell =>
          cases h
          exact ⟨owner, descriptor, onInterface, signature, rfl, hparse, hcell⟩
        · cases h
    · cases h
  · rintro ⟨owner, descriptor, onInterface, signature, rfl, hparse, hcell⟩
    simp only [constructed?, hparse, hcell]

namespace Tracker

/-- The type with that of an object replaced by the one it has after its constructor has run. -/
def construct (owner name : String) (site : Int) (t : JType) : JType :=
  if t = .uninitialized name site then initialized owner name site else t

/-- **What becomes of the types that an instruction leaves where they are**: nothing, unless it runs
a constructor. -/
def settle (owner : String) (insn : Instruction) (f : Frame) : JType → JType :=
  match insn.constructed? f with
  | some (name, site) => construct owner name site
  | none => id

theorem size_construct (owner name : String) (site : Int) (t : JType) :
    (construct owner name site t).size = t.size := by
  unfold construct
  split
  · next ht =>
    subst ht
    unfold initialized JType.ofClassName
    split <;> rfl
  · rfl

section Settling

variable {owner : String} {insn : Instruction} {f : Frame}

theorem settle_of_constructed {name : String} {site : Int}
    (h : insn.constructed? f = some (name, site)) :
    settle owner insn f = construct owner name site := by
  unfold settle
  rw [h]

theorem settle_eq_id (h : ∀ name site, insn.constructed? f ≠ some (name, site)) :
    settle owner insn f = id := by
  unfold settle
  split
  · next name site heq => exact absurd heq (h name site)
  · rfl

end Settling

/-! ### Programs -/

section Programs

variable {α β : Type} {φ ψ : JType → JType} {s s₁ s' : State} {x : Track α}

/-- A state with more cells at the bottom of the stack. -/
def State.over (s : State) (base : List JType) : State :=
  { s with frame := ⟨s.frame.stack ++ base, s.frame.locals⟩, low := s.low + base.length }

/-- What a program leaves alone: the slots that none of the writes touches keep their types, up to a
replacement. -/
structure Leaves (φ : JType → JType) (s s' : State) : Prop where
  low_le : s'.low ≤ s.low
  writes : s.writes ⊆ s'.writes
  get? : ∀ index, (∀ w ∈ s'.writes, ¬ w.Touches s.frame index) →
    s'.frame.locals.get? index = (s.frame.locals.get? index).map φ

/-- Nothing has been done to the slots. -/
theorem Leaves.same (hlow : s'.low ≤ s.low) (hwrites : s'.writes = s.writes)
    (hlocals : s'.frame.locals = s.frame.locals) : Leaves id s s' where
  low_le := hlow
  writes := fun _ hw => hwrites ▸ hw
  get? index _ := by rw [hlocals, Option.map_id, id]

theorem Leaves.trans (h : Leaves φ s s₁) (h' : Leaves ψ s₁ s')
    (hφ : ∀ t, (φ t).size = t.size) : Leaves (ψ ∘ φ) s s' where
  low_le := Nat.le_trans h'.low_le h.low_le
  writes := fun _ hw => h'.writes (h.writes hw)
  get? index hindex := by
    have hget := h.get? index fun w hw => hindex w (h'.writes hw)
    -- the slot is as wide as before, so the later writes do not touch it either
    have hsize : (s₁.frame.slot index).size = (s.frame.slot index).size := by
      unfold Frame.slot
      rw [hget]
      cases s.frame.locals.get? index with
      | none => rfl
      | some t => exact hφ t
    have hindex' : ∀ w ∈ s'.writes, ¬ w.Touches s₁.frame index := by
      intro w hw
      unfold SlotAccess.Touches
      rw [hsize]
      exact hindex w hw
    rw [h'.get? index hindex', hget, Option.map_map]

/-- The state in which a program ends, whatever its outcome. -/
def ended : EStateM.Result (Stop TrackFault) State α → State
  | .ok _ s | .error _ s => s

theorem ended_bind (x : Track α) (g : α → Track β) (s : State) :
    ended ((x >>= g).run s) = ended (x.run s) ∨
      ∃ a s₁, x.run s = .ok a s₁ ∧ ended ((x >>= g).run s) = ended ((g a).run s₁) := by
  change ended (EStateM.bind x g s) = ended (x s) ∨
    ∃ a s₁, x s = .ok a s₁ ∧ ended (EStateM.bind x g s) = ended (g a s₁)
  unfold EStateM.bind
  cases x s with
  | ok a s₁ => exact .inr ⟨a, s₁, rfl, rfl⟩
  | error e s₁ => exact .inl rfl

/-- **A program is local from a state on.** It changes slots by stores and constructors only. If it
succeeds, it leaves alone what it does not write, and it does the same in a state that lacks cells
below all that it takes off. -/
structure LocalFrom (φ : JType → JType) (s : State) (x : Track α) : Prop where
  revises : s.frame.Revises (ended (x.run s)).frame
  leaves : ∀ a s', x.run s = .ok a s' → Leaves φ s s'
  cut : ∀ a s', x.run s = .ok a s' → ∀ s₀ base, s = s₀.over base → base.length ≤ s'.low →
    ∃ s₀', x.run s₀ = .ok a s₀' ∧ s' = s₀'.over (base.map φ)

theorem of_pop {n : Nat} {cells : List JType} (h : (pop n).run s = .ok cells s') :
    n ≤ s.frame.depth ∧ cells = s.frame.stack.take n ∧
      s' = { s with
        frame := ⟨s.frame.stack.drop n, s.frame.locals⟩
        low := min s.low (s.frame.depth - n) } := by
  by_cases hn : n ≤ s.frame.depth
  · rw [pop_run hn] at h
    cases h
    exact ⟨hn, rfl, rfl⟩
  · have hpop : s.frame.popN? n = none := if_neg hn
    obtain ⟨s₁, s₂, hget, hrest⟩ := bind_ok.1 h
    cases hget
    rw [hpop] at hrest
    cases hrest

theorem of_popValue {t : JType} (h : popValue.run s = .ok t s') :
    ∃ g, s.frame.pop? = some (t, g) ∧ s' = { s with frame := g, low := min s.low g.depth } := by
  cases hpop : s.frame.pop? with
  | none =>
    obtain ⟨s₁, s₂, hget, hrest⟩ := bind_ok.1 h
    cases hget
    rw [hpop] at hrest
    cases hrest
  | some taken =>
    rw [popValue_run hpop] at h
    cases h
    exact ⟨_, rfl, rfl⟩

theorem ended_pop (n : Nat) (s : State) :
    (ended ((pop n).run s)).frame.locals = s.frame.locals := by
  unfold pop
  rcases ended_bind get _ s with hended | ⟨_, _, hget, hended⟩
  · rw [hended]
    rfl
  · cases hget
    rw [hended]
    split
    · rfl
    · next hpop =>
      unfold Frame.popN? at hpop
      split at hpop <;> cases hpop
      rfl

theorem ended_popValue (s : State) : (ended (popValue.run s)).frame.locals = s.frame.locals := by
  unfold popValue
  rcases ended_bind get _ s with hended | ⟨_, _, hget, hended⟩
  · rw [hended]
    rfl
  · cases hget
    rw [hended]
    split
    · rfl
    · next hpop => exact (Frame.of_pop? hpop).2

namespace LocalFrom

/-- One program after the other. The sizes of types are not changed in between. -/
theorem seq {g : α → Track β} (hx : LocalFrom φ s x) (hφ : ∀ t, (φ t).size = t.size)
    (hg : ∀ a s₁, x.run s = .ok a s₁ → LocalFrom ψ s₁ (g a)) :
    LocalFrom (ψ ∘ φ) s (x >>= g) where
  revises := by
    rcases ended_bind x g s with hended | ⟨a, s₁, hfirst, hended⟩
    · exact hended ▸ hx.revises
    · have hrevises := hx.revises
      rw [hfirst] at hrevises
      exact hended ▸ hrevises.trans (hg a s₁ hfirst).revises
  leaves b s' hrun := by
    obtain ⟨a, s₁, hfirst, hsecond⟩ := bind_ok.1 hrun
    exact (hx.leaves a s₁ hfirst).trans ((hg a s₁ hfirst).leaves b s' hsecond) hφ
  cut b s' hrun s₀ base hs hbase := by
    obtain ⟨a, s₁, hfirst, hsecond⟩ := bind_ok.1 hrun
    have hlow := ((hg a s₁ hfirst).leaves b s' hsecond).low_le
    obtain ⟨s₀₁, hfirst₀, hover⟩ := hx.cut a s₁ hfirst s₀ base hs (Nat.le_trans hbase hlow)
    have hbase' : (base.map φ).length ≤ s'.low := by rwa [List.length_map]
    obtain ⟨s₀', hsecond₀, hover'⟩ :=
      (hg a s₁ hfirst).cut b s' hsecond s₀₁ (base.map φ) hover hbase'
    rw [List.map_map] at hover'
    exact ⟨s₀', bind_ok.2 ⟨a, s₀₁, hfirst₀, hsecond₀⟩, hover'⟩

protected theorem bind {g : α → Track β} (hx : LocalFrom id s x)
    (hg : ∀ a s₁, x.run s = .ok a s₁ → LocalFrom ψ s₁ (g a)) : LocalFrom ψ s (x >>= g) :=
  hx.seq (fun _ => rfl) hg

protected theorem pure (a : α) : LocalFrom id s (pure a) where
  revises := .refl
  leaves b s' hrun := by
    cases hrun
    exact .same (Nat.le_refl _) rfl rfl
  cut b s' hrun s₀ base hs _ := by
    cases hrun
    exact ⟨s₀, rfl, by rw [hs, List.map_id]⟩

theorem refuse (fault : TrackFault) : LocalFrom φ s (Tracker.refuse fault : Track α) :=
  ⟨.refl, nofun, nofun⟩

theorem breakdown : LocalFrom φ s (Tracker.breakdown : Track α) :=
  ⟨.refl, nofun, nofun⟩

theorem orRefuse (fault : TrackFault) (o : Option α) :
    LocalFrom id s (Tracker.orRefuse fault o) := by
  cases o with
  | none => exact refuse fault
  | some a => exact .pure a

/-- Looking at the state, as far as the cells below do not matter. -/
theorem look {g : State → Track β} (hover : ∀ s₀ base, g (s₀.over base) = g s₀)
    (hg : LocalFrom φ s (g s)) : LocalFrom φ s (get >>= g) where
  revises := hg.revises
  leaves := hg.leaves
  cut b s' hrun s₀ base hs hbase := by
    obtain ⟨s₀', hrun₀, hs'⟩ := hg.cut b s' hrun s₀ base hs hbase
    rw [hs, hover] at hrun₀
    exact ⟨s₀', hrun₀, hs'⟩

/-- A change that takes no cell off. -/
protected theorem modify {g : State → State} (hrevises : s.frame.Revises (g s).frame)
    (hleaves : Leaves φ s (g s))
    (hover : ∀ s₀ base, g (s₀.over base) = (g s₀).over (base.map φ)) :
    LocalFrom φ s (modify g) where
  revises := hrevises
  leaves a s' hrun := by
    cases hrun
    exact hleaves
  cut a s' hrun s₀ base hs _ := by
    cases hrun
    exact ⟨g s₀, rfl, by rw [hs, hover]⟩

/-- A change to the stack or to what has been read. -/
theorem modify_id {g : State → State} (hlow : (g s).low = s.low) (hwrites : (g s).writes = s.writes)
    (hlocals : (g s).frame.locals = s.frame.locals)
    (hover : ∀ s₀ base, g (s₀.over base) = (g s₀).over base) : LocalFrom id s (modify g) :=
  .modify (.of_locals hlocals) (.same (Nat.le_of_eq hlow) hwrites hlocals) (by simpa using hover)

theorem push (t : JType) : LocalFrom id s (Tracker.push t) :=
  modify_id rfl rfl rfl fun s₀ base => by simp [Frame.push, State.over]

theorem pushAll (cells : List JType) :
    LocalFrom id s (modify fun s => { s with frame := s.frame.pushAll cells } : Track Unit) :=
  modify_id rfl rfl rfl fun s₀ base => by simp [Frame.pushAll, State.over]

theorem read (slot : Int) (size : Nat) : LocalFrom id s (Tracker.read slot size) :=
  modify_id rfl rfl rfl fun _ _ => rfl

theorem write (slot : Int) (t : JType) : LocalFrom id s (Tracker.write slot t) := by
  refine .modify (.store slot t .refl)
    ⟨Nat.le_refl _, List.subset_append_left _ _, fun index hindex => ?_⟩ fun s₀ base => ?_
  · have hwrite : ¬ SlotAccess.Touches ⟨slot, t.size⟩ s.frame index :=
      hindex _ (List.mem_append_right _ (List.mem_singleton_self _))
    rw [Option.map_id, id]
    exact Frame.get?_setSlot_of_not_touches hwrite
  · rw [List.map_id]
    rfl

/-- The type of an object changes everywhere when its constructor has run. -/
theorem replace (owner name : String) (site : Int) :
    LocalFrom (construct owner name site) s (modify fun s =>
      { s with frame := s.frame.replace (.uninitialized name site) (initialized owner name site) } :
        Track Unit) := by
  refine .modify (.construct name site _ .refl)
    ⟨Nat.le_refl _, List.Subset.refl _, fun index _ => ?_⟩ fun s₀ base => ?_
  · exact SlotMap.get?_mapWithSlot _ _ _
  · simp only [Frame.replace, State.over, List.map_append, List.length_map]
    rfl

theorem pop (n : Nat) : LocalFrom id s (Tracker.pop n) where
  revises := .of_locals (ended_pop n s)
  leaves cells s' hrun := by
    obtain ⟨-, -, rfl⟩ := of_pop hrun
    exact .same (Nat.min_le_left _ _) rfl rfl
  cut cells s' hrun s₀ base hs hbase := by
    obtain ⟨hn, rfl, rfl⟩ := of_pop hrun
    subst hs
    have hdepth : (s₀.over base).frame.depth = s₀.frame.depth + base.length := List.length_append
    rw [hdepth] at hn hbase ⊢
    -- the cells taken off are all above the others
    have hn₀ : n ≤ s₀.frame.depth := by
      have hle : base.length ≤ s₀.frame.depth + base.length - n :=
        Nat.le_trans hbase (Nat.min_le_right _ _)
      omega
    have htake : s₀.frame.stack.take n = (s₀.over base).frame.stack.take n :=
      (List.take_append_of_le_length hn₀).symm
    have hdrop : (s₀.frame.stack ++ base).drop n = s₀.frame.stack.drop n ++ base :=
      List.drop_append_of_le_length hn₀
    have hlow : min (s₀.low + base.length) (s₀.frame.depth + base.length - n) =
        min s₀.low (s₀.frame.depth - n) + base.length := by omega
    refine ⟨_, htake ▸ pop_run hn₀, ?_⟩
    simp only [State.over, List.map_id, hdrop, hlow]

theorem popValue : LocalFrom id s Tracker.popValue where
  revises := .of_locals (ended_popValue s)
  leaves t s' hrun := by
    obtain ⟨g, hpop, rfl⟩ := of_popValue hrun
    exact .same (Nat.min_le_left _ _) rfl (Frame.of_pop? hpop).2
  cut t s' hrun s₀ base hs hbase := by
    obtain ⟨g, hpop, rfl⟩ := of_popValue hrun
    subst hs
    obtain ⟨rest, hpop₀, rfl⟩ := Frame.pop?_append hpop (Nat.le_trans hbase (Nat.min_le_right _ _))
    refine ⟨_, popValue_run hpop₀, ?_⟩
    simp only [State.over, List.map_id, State.mk.injEq, true_and, and_true, Frame.depth,
      List.length_append]
    omega

theorem popPush (n : Nat) (t : JType) : LocalFrom id s (Tracker.popPush n t) :=
  (pop n).bind fun _ _ _ => push t

/-- Taking cells off and leaving it at that. -/
theorem drop (n : Nat) : LocalFrom id s (Tracker.pop n >>= fun _ => pure ()) :=
  (pop n).bind fun _ _ _ => .pure ()

theorem access (op : FieldOp) (descriptor : String) :
    LocalFrom id s (Tracker.access op descriptor) := by
  unfold Tracker.access
  split
  · exact refuse _
  · cases op with
    | getStatic => exact push _
    | putStatic => exact drop _
    | getField => exact popValue.bind fun _ _ _ => push _
    | putField => exact drop _

theorem pushResult (t : JType) : LocalFrom id s (Tracker.pushResult t) := by
  unfold Tracker.pushResult
  split
  · exact .pure ()
  · exact push _

theorem call (owner : String) (op : InvokeOp) (methodOwner name descriptor : String)
    (onInterface : Bool) :
    LocalFrom (settle owner (.method (.invoke op) methodOwner name descriptor onInterface) s.frame)
      s (Tracker.call owner op name descriptor) := by
  have plain (hop : op ≠ .special) :
      settle owner (.method (.invoke op) methodOwner name descriptor onInterface) s.frame = id := by
    refine settle_eq_id fun className site hsome => ?_
    obtain ⟨_, _, _, _, heq, -⟩ := Instruction.constructed?_eq_some_iff.1 hsome
    cases heq
    exact hop rfl
  unfold Tracker.call
  split
  · exact refuse _
  next signature hparse =>
  refine (pop _).bind fun _ s₁ hargs => ?_
  cases op with
  | static | dynamic =>
    rw [plain nofun]
    exact pushResult _
  | «virtual» | interface =>
    rw [plain nofun]
    exact popValue.bind fun _ _ _ => pushResult _
  | special =>
    refine popValue.bind fun receiver s₂ hreceiver => ?_
    -- the receiver that is taken off is the cell below the arguments
    obtain ⟨-, -, rfl⟩ := of_pop hargs
    obtain ⟨g, hpop, -⟩ := of_popValue hreceiver
    have hcell (className : String) (site : Int) :
        s.frame.stack[signature.argumentsSize]? = some (.uninitialized className site) ↔
          receiver = .uninitialized className site := by
      rw [← Frame.head?_of_pop? hpop, List.head?_drop]
    have still (h : ∀ className site, name = "<init>" → receiver ≠ .uninitialized className site) :
        settle owner (.method (.invoke .special) methodOwner name descriptor onInterface) s.frame =
          id := by
      refine settle_eq_id fun className site hsome => ?_
      obtain ⟨_, _, _, _, heq, hparse', hcell'⟩ := Instruction.constructed?_eq_some_iff.1 hsome
      cases heq
      obtain rfl := Except.ok.inj (hparse.symm.trans hparse')
      exact h className site rfl ((hcell className site).1 hcell')
    cases receiver with
    | uninitialized className site =>
      dsimp only
      split
      · next hname =>
        subst hname
        rw [settle_of_constructed (Instruction.constructed?_eq_some_iff.2
          ⟨methodOwner, descriptor, onInterface, signature, rfl, hparse, (hcell _ _).2 rfl⟩)]
        exact (replace owner className site).seq (size_construct owner className site)
          fun _ _ _ => pushResult _
      · next hname =>
        rw [still fun _ _ heq => absurd heq hname]
        exact pushResult _
    | _ =>
      rw [still fun _ _ _ => JType.noConfusion]
      exact pushResult _

end LocalFrom

/-- **Every instruction is local.** -/
theorem local_perform (owner : String) (insn : Instruction) (offset : Int) (s : State) :
    LocalFrom (settle owner insn s.frame) s (perform owner insn offset) := by
  have plain (h : ∀ op, insn.opcode ≠ .invoke op) : settle owner insn s.frame = id := by
    refine settle_eq_id fun name site hsome => ?_
    obtain ⟨_, _, _, _, rfl, -⟩ := Instruction.constructed?_eq_some_iff.1 hsome
    exact h .special rfl
  -- only calls can run constructors
  by_cases hinvoke : ∃ op, insn.opcode = .invoke op
  · obtain ⟨op, hop⟩ := hinvoke
    unfold perform
    rw [hop]
    dsimp only
    split
    · cases hop
      exact .call owner op _ _ _ _
    · exact .breakdown
  rw [plain fun op hop => hinvoke ⟨op, hop⟩]
  unfold perform
  split
  -- first what does not look at the form of the instruction
  all_goals first
    | exact .pure ()
    | exact .push _
    | exact .popPush _ _
    | exact .drop _
    | exact .refuse _
    | exact LocalFrom.popValue.bind fun _ _ _ => .pure ()
    | exact LocalFrom.popValue.bind fun _ _ _ => .push _
    | skip
  -- constants
  · split
    · exact (LocalFrom.orRefuse _ _).bind fun _ _ _ => .push _
    · exact .breakdown
  -- loads, stores, increments and returns from subroutines: only a load of a reference looks at the
  -- frame, and there at a slot
  · split
    · refine (LocalFrom.read _ _).bind fun _ _ _ => ?_
      split
      · exact .look (fun _ _ => rfl) (.push _)
      · exact .push _
    · exact .breakdown
  · split
    · refine LocalFrom.popValue.bind fun _ _ _ => ?_
      split <;> exact .write _ _
    · exact .breakdown
  · split
    · exact (LocalFrom.read _ _).bind fun _ _ _ => .write _ _
    · exact .breakdown
  · split
    · exact .read _ _
    · exact .breakdown
  -- what is pushed depends on what was taken off
  · exact (LocalFrom.pop 1).bind fun _ _ _ => LocalFrom.popValue.bind fun _ _ _ => .push _
  · refine (LocalFrom.pop _).bind fun cells _ _ => ?_
    split
    · exact .pushAll _
    · exact .breakdown
  -- fields and calls, the latter of which have been dealt with
  · split
    · exact .access _ _
    · exact .breakdown
  · next op hop => exact absurd ⟨op, hop⟩ hinvoke
  -- new objects and arrays, and casts
  · split
    · exact .push _
    · exact .breakdown
  · refine (LocalFrom.pop 1).bind fun _ _ _ => ?_
    split
    · exact (LocalFrom.orRefuse _ _).bind fun _ _ _ => .push _
    · exact .breakdown
  · refine (LocalFrom.pop 1).bind fun _ _ _ => ?_
    split
    · exact .push _
    · exact .breakdown
  · split
    · split
      · exact .breakdown
      · refine (LocalFrom.pop _).bind fun _ _ _ => ?_
        split
        · exact .refuse _
        · exact .push _
    · exact .breakdown
  · refine (LocalFrom.pop 1).bind fun _ _ _ => ?_
    split
    · exact .push _
    · exact .breakdown

end Programs

/-! ### Steps -/

section Steps

variable {owner : String} {insn : Instruction} {offset : Int} {f after : Frame} {e : Effect}

/-- A frame is a state to start from, with some of its cells at the bottom. -/
theorem start_eq_over {top base : List JType} (h : f.stack = top ++ base) :
    (⟨f, f.depth, [], []⟩ : State) =
      State.over ⟨⟨top, f.locals⟩, Frame.depth ⟨top, f.locals⟩, [], []⟩ base := by
  obtain ⟨stack, locals⟩ := f
  obtain rfl : stack = _ := h
  simp [State.over, Frame.depth]

/-- **A step does the same without the cells below those it takes off.** -/
theorem execute_cut (h : execute owner f insn offset = (after, .ok e)) {top base : List JType}
    (hstack : f.stack = top ++ base) (hpops : e.pops ≤ top.length) :
    ∃ above, execute owner ⟨top, f.locals⟩ insn offset = (⟨above, after.locals⟩, .ok e) ∧
      after.stack = above ++ base.map (settle owner insn f) := by
  obtain ⟨s', hrun, rfl, rfl⟩ := execute_ok h
  obtain ⟨⟨-, hle, -⟩, -⟩ := floats_perform owner insn offset _ _ _ hrun (Nat.le_refl _)
  have hcut := (local_perform owner insn offset _).cut _ _ hrun
  have hdepth : f.depth = top.length + base.length := by
    rw [Frame.depth, hstack, List.length_append]
  dsimp only at hle hpops
  obtain ⟨s₀', hrun₀, rfl⟩ := hcut _ base (start_eq_over hstack) (by omega)
  refine ⟨s₀'.frame.stack, ?_, rfl⟩
  -- the base counts on both sides of the differences that make up the effect
  have hpops₀ : top.length - s₀'.low = f.depth - (s₀'.low + base.length) := by omega
  have hpushes : s₀'.frame.depth - s₀'.low =
      (s₀'.frame.stack ++ base.map (settle owner insn f)).length - (s₀'.low + base.length) := by
    rw [List.length_append, List.length_map, Nat.add_sub_add_right]
    rfl
  unfold execute
  rw [hrun₀]
  simp only [State.over, List.length_map, Frame.depth] at hpops₀ hpushes ⊢
  rw [hpops₀, hpushes]

/-- **A step changes slots by stores and constructors only**, whatever its outcome. -/
theorem revises_execute (owner : String) (f : Frame) (insn : Instruction) (offset : Int) :
    f.Revises (execute owner f insn offset).1 := by
  have hrevises := (local_perform owner insn offset ⟨f, f.depth, [], []⟩).revises
  unfold execute
  split
  · next hrun => rwa [hrun] at hrevises
  · next hrun => rwa [hrun] at hrevises

/-- The cells a step takes off and those it leaves. -/
theorem depth_execute (h : execute owner f insn offset = (after, .ok e)) :
    e.pops ≤ f.depth ∧ after.depth = f.depth - e.pops + e.pushes := by
  obtain ⟨s', hrun, rfl, rfl⟩ := execute_ok h
  obtain ⟨⟨hlow, hle, -⟩, -⟩ := floats_perform owner insn offset _ _ _ hrun (Nat.le_refl _)
  dsimp only at hle ⊢
  omega

/-- **One step is local.** The stack is as deep afterwards as the effect says. The cells below those
that are taken off and the slots that no write touches keep their types, up to the running of a
constructor. And on an upper part of the stack alone that has all the cells to take off, the step
succeeds with the same effect and leaves the same cells and slots. -/
theorem step_local (h : execute owner f insn offset = (after, .ok e)) :
    (e.pops ≤ f.depth ∧ after.depth = f.depth - e.pops + e.pushes) ∧
    after.stack.drop e.pushes = (f.stack.drop e.pops).map (settle owner insn f) ∧
    (∀ index, (∀ w ∈ e.writes, ¬ w.Touches f index) →
      after.locals.get? index = (f.locals.get? index).map (settle owner insn f)) ∧
    ∀ top base, f.stack = top ++ base → e.pops ≤ top.length →
      ∃ above, execute owner ⟨top, f.locals⟩ insn offset = (⟨above, after.locals⟩, .ok e) ∧
        after.stack = above ++ base.map (settle owner insn f) := by
  have hdepth := depth_execute h
  refine ⟨hdepth, ?_, fun index hindex => ?_, fun top base => execute_cut h⟩
  · -- the stack is cut right below what is taken off
    have hlength : (f.stack.take e.pops).length = e.pops := List.length_take_of_le hdepth.1
    obtain ⟨above, -, hstack⟩ :=
      execute_cut h (List.take_append_drop e.pops f.stack).symm (Nat.le_of_eq hlength.symm)
    have habove : above.length = e.pushes := by
      have := hdepth.2
      rw [Frame.depth, hstack, List.length_append, List.length_map, List.length_drop] at this
      change above.length + (f.depth - e.pops) = _ at this
      omega
    rw [hstack, ← habove, List.drop_left]
  · obtain ⟨s', hrun, rfl, rfl⟩ := execute_ok h
    exact ((local_perform owner insn offset _).leaves _ _ hrun).get? index hindex

/-- An object that has been created and not been initialized. -/
def allocated : JType := .uninitialized "A" 3

/-- A frame in which an object is about to be initialized with a wide argument. The object is known
in two cells, the lower one of which is meant to keep it, and in a slot. -/
def constructing : Frame :=
  ⟨[.top, .long, allocated, allocated, .int], .ofList [(0, allocated), (1, .int)]⟩

theorem step_local_constructing :
    let insn := .method (.invoke .special) "A" "<init>" "(J)V" false
    let after : Frame := ⟨[.object "A", .int], .ofList [(0, .object "A"), (1, .int)]⟩
    execute "B" constructing insn 5 = (after, .ok ⟨3, 0, [], []⟩) ∧
      settle "B" insn constructing = construct "B" "A" 3 ∧
      after.stack.drop 0 = (constructing.stack.drop 3).map (construct "B" "A" 3) ∧
      after.locals.get? 0 = (constructing.locals.get? 0).map (construct "B" "A" 3) ∧
      ∃ above, execute "B" ⟨[.top, .long, allocated, allocated], constructing.locals⟩ insn 5 =
          (⟨above, after.locals⟩, .ok ⟨3, 0, [], []⟩) ∧
        after.stack = above ++ [JType.int].map (construct "B" "A" 3) := by
  intro insn after
  have hexec : execute "B" constructing insn 5 = (after, .ok ⟨3, 0, [], []⟩) := by decide +kernel
  have hsettle : settle "B" insn constructing = construct "B" "A" 3 :=
    settle_of_constructed (by decide +kernel)
  obtain ⟨-, hcells, hlocals, hcut⟩ := step_local hexec
  rw [hsettle] at hcells hlocals hcut
  exact ⟨hexec, hsettle, hcells, hlocals 0 (List.forall_mem_nil _),
    hcut [.top, .long, allocated, allocated] [.int] rfl (by decide)⟩

end Steps

end Tracker

end Outliner
