import Outliner.Proofs.Resting
import Outliner.Proofs.WireForms

/-!
# Where loading and analysing break down

A document comes from outside, so whatever its bytes are, loading it should give routines or a
refusal, and so should analysing what was loaded. This module says exactly where that fails.

* A list of records with a null entry breaks down when its turn comes
  (`Wire.Codec.decodeAll_eq_breakdown_iff`).
* An instruction that creates an array of a negative number of dimensions breaks down when it is
  visited (`Tracker.execute_eq_breakdown_iff`).

Nothing else does. The labels that reading hands out never run out
(`Wire.badLabel_of_toRoutine`), an analysis breaks down only at such an instruction
(`Flow.exists_of_analyze_breakdown`), and under the flat hierarchy it always comes to an end.
-/

namespace Outliner

/-! ### Instructions -/

namespace Tracker

variable {α β : Type} {x : Track α}

/-- A step of the tracker that does not break down. -/
def Spared (x : Track α) : Prop :=
  ∀ s s', x.run s ≠ .error .breakdown s'

theorem bind_error {g : α → Track β} {s s' : State} {stop : Stop TrackFault} :
    (x >>= g).run s = .error stop s' ↔
      x.run s = .error stop s' ∨ ∃ a s₁, x.run s = .ok a s₁ ∧ (g a).run s₁ = .error stop s' := by
  change EStateM.bind x g s = _ ↔ x s = _ ∨ ∃ a s₁, x s = .ok a s₁ ∧ g a s₁ = _
  unfold EStateM.bind
  cases x s with
  | ok a s₁ =>
    refine ⟨fun h => .inr ⟨a, s₁, rfl, h⟩, ?_⟩
    rintro (h | ⟨a', s₂, h, h'⟩)
    · cases h
    · cases h
      exact h'
  | error e s₁ =>
    constructor
    · intro h
      cases h
      exact .inl rfl
    · rintro (h | ⟨a', s₂, h, -⟩)
      · cases h
        rfl
      · cases h

namespace Spared

protected theorem pure (a : α) : Spared (pure a) := nofun

/-- What follows a step matters only for the values that the step can give. -/
theorem bind_of {g : α → Track β} (hx : Spared x)
    (hg : ∀ s a s', x.run s = .ok a s' → Spared (g a)) : Spared (x >>= g) := by
  intro s s' h
  rcases bind_error.1 h with h | ⟨a, s₁, ha, h⟩
  · exact hx s s' h
  · exact hg s a s₁ ha s₁ s' h

protected theorem bind {g : α → Track β} (hx : Spared x) (hg : ∀ a, Spared (g a)) :
    Spared (x >>= g) :=
  hx.bind_of fun _ a _ _ => hg a

theorem refuse (fault : TrackFault) : Spared (Tracker.refuse fault : Track α) := by
  intro s s' h
  cases h

theorem orRefuse (fault : TrackFault) (o : Option α) : Spared (Tracker.orRefuse fault o) := by
  cases o with
  | none => exact refuse fault
  | some a => exact .pure a

protected theorem get : Spared (get : Track State) := nofun

protected theorem set (s : State) : Spared (set s : Track PUnit) := nofun

theorem modify (g : State → State) : Spared (modify g : Track PUnit) := nofun

theorem push (t : JType) : Spared (Tracker.push t) := modify _

theorem read (slot : Int) (size : Nat) : Spared (Tracker.read slot size) := modify _

theorem write (slot : Int) (t : JType) : Spared (Tracker.write slot t) := modify _

theorem pop (n : Nat) : Spared (Tracker.pop n) := by
  refine Spared.get.bind fun s => ?_
  split
  · exact refuse _
  · exact (Spared.set _).bind fun _ => .pure _

theorem popValue : Spared Tracker.popValue := by
  refine Spared.get.bind fun s => ?_
  split
  · exact refuse _
  · exact (Spared.set _).bind fun _ => .pure _

theorem drop (n : Nat) : Spared (Tracker.pop n >>= fun _ => pure ()) :=
  (pop n).bind fun _ => .pure ()

theorem popPush (n : Nat) (t : JType) : Spared (Tracker.popPush n t) :=
  (pop n).bind fun _ => push t

theorem access (op : FieldOp) (descriptor : String) : Spared (Tracker.access op descriptor) := by
  unfold Tracker.access
  split
  · exact refuse _
  · cases op with
    | getStatic => exact push _
    | putStatic => exact drop _
    | getField => exact popValue.bind fun _ => push _
    | putField => exact drop _

theorem call (owner : String) (op : InvokeOp) (name descriptor : String) :
    Spared (Tracker.call owner op name descriptor) := by
  unfold Tracker.call
  split
  · exact refuse _
  · next signature _ =>
    have hresult : Spared (pushResult signature.result) := by
      unfold pushResult
      split
      · exact .pure ()
      · exact push _
    refine (pop _).bind fun _ => ?_
    cases op with
    | static | dynamic => exact hresult
    | «virtual» | interface => exact popValue.bind fun _ => hresult
    | special =>
      refine popValue.bind fun receiver => ?_
      cases receiver with
      | uninitialized className site =>
        dsimp only
        split
        · exact (modify _).bind fun _ => hresult
        · exact hresult
      | _ => exact hresult

end Spared

/-- Taking cells off gives as many as were asked for. -/
theorem length_of_pop {n : Nat} {s s' : State} {cells : List JType}
    (h : (pop n).run s = .ok cells s') : cells.length = n := by
  obtain ⟨s₁, s₂, h₁, h₂⟩ := bind_ok.1 h
  cases h₁
  split at h₂
  · cases h₂
  · next cells' f hpop =>
    cases h₂
    unfold Frame.popN? at hpop
    split at hpop
    · next hle =>
      cases hpop
      rw [List.length_take]
      exact Nat.min_eq_left hle
    · cases hpop

/-- A rearrangement has a result for as many cells as it takes. -/
theorem exists_apply {form : Shuffle} {cells : List JType} (h : cells.length = form.taken) :
    ∃ out, form.apply cells = some out := by
  cases form with
  | dup =>
    obtain ⟨a, rfl⟩ := List.length_eq_one_iff.1 h
    exact ⟨_, rfl⟩
  | dupX1 | dup2 | swap =>
    obtain ⟨a, b, rfl⟩ := List.length_eq_two.1 h
    exact ⟨_, rfl⟩
  | dupX2 | dup2X1 =>
    obtain ⟨a, b, c, rfl⟩ := List.length_eq_three.1 h
    exact ⟨_, rfl⟩
  | dup2X2 =>
    match cells, h with
    | [a, b, c, d], _ => exact ⟨_, rfl⟩

end Tracker

namespace Instruction

/-- The instruction has the given form. -/
def IsOf (insn : Instruction) : OperandForm → Prop
  | .plain => ∃ op, insn = plain op
  | .int => ∃ op operand, insn = int op operand
  | .slot => ∃ op index, insn = slot op index
  | .iinc => ∃ index amount, insn = iinc index amount
  | .type => ∃ op name, insn = type op name
  | .field => ∃ op owner name descriptor, insn = field op owner name descriptor
  | .method | .callSite =>
    ∃ op owner name descriptor onInterface, insn = method op owner name descriptor onInterface
  | .ldc => ∃ c, insn = ldc c
  | .jump => ∃ op target, insn = jump op target
  | .tableSwitch => ∃ low high fallback targets, insn = tableSwitch low high fallback targets
  | .lookupSwitch => ∃ fallback keys targets, insn = lookupSwitch fallback keys targets
  | .multiArray => ∃ descriptor dims, insn = multiArray descriptor dims

/-- A canonical operation has the form of its opcode. -/
theorem isOf_of_opcode {insn : Instruction} (h : insn.isCanonical) {op : Opcode}
    (hop : insn.opcode = op) (hne : op ≠ .marker) : insn.IsOf op.form := by
  subst hop
  have hpos : insn.isPosition = false := by
    cases insn with
    | label l | line n | frame => exact absurd rfl hne
    | _ => rfl
  -- the form alone decides which constructor it is
  have hcarries := (carries_of_isCanonical h hpos).2
  generalize insn.opcode.form = form at hcarries ⊢
  unfold carries at hcarries
  split at hcarries
  case h_14 => cases hcarries
  all_goals simp [IsOf]

end Instruction

namespace Tracker

/-- **A canonical instruction does not break down**, unless it has a negative number of
dimensions. -/
theorem spared_perform {insn : Instruction} (hcanonical : insn.isCanonical)
    (hdims : ∀ descriptor dims, insn = .multiArray descriptor dims → 0 ≤ dims) (owner : String)
    (offset : Int) : Spared (perform owner insn offset) := by
  unfold perform
  split
  -- first what does not look at the form of the instruction
  all_goals first
    | exact Spared.pure ()
    | exact Spared.push _
    | exact Spared.popPush _ _
    | exact Spared.drop _
    | exact Spared.refuse _
    | exact Spared.popValue.bind fun _ => .pure ()
    | exact Spared.popValue.bind fun _ => .push _
    | skip
  · next hop =>
    obtain ⟨c, rfl⟩ := Instruction.isOf_of_opcode hcanonical hop nofun
    exact (Spared.orRefuse _ _).bind fun _ => .push _
  · next kind hop =>
    obtain ⟨op, index, rfl⟩ := Instruction.isOf_of_opcode hcanonical hop nofun
    refine (Spared.read _ _).bind fun _ => ?_
    split
    · exact Spared.get.bind fun _ => .push _
    · exact .push _
  · next kind hop =>
    obtain ⟨op, index, rfl⟩ := Instruction.isOf_of_opcode hcanonical hop nofun
    refine Spared.popValue.bind fun _ => ?_
    split <;> exact .write _ _
  · next hop =>
    obtain ⟨index, amount, rfl⟩ := Instruction.isOf_of_opcode hcanonical hop nofun
    exact (Spared.read _ _).bind fun _ => .write _ _
  · next hop =>
    obtain ⟨op, index, rfl⟩ := Instruction.isOf_of_opcode hcanonical hop nofun
    exact .read _ _
  · exact (Spared.pop 1).bind fun _ => Spared.popValue.bind fun _ => .push _
  · next form _ =>
    -- as many cells as the shuffle asks for have been taken off, so it can be applied
    refine (Spared.pop _).bind_of fun s cells s' hpop => ?_
    obtain ⟨out, hout⟩ := exists_apply (length_of_pop hpop)
    rw [hout]
    exact .modify _
  · next op hop =>
    obtain ⟨_, owner, name, descriptor, rfl⟩ := Instruction.isOf_of_opcode hcanonical hop nofun
    exact .access _ _
  · next op hop =>
    have hform : insn.IsOf .method := by
      have hof := Instruction.isOf_of_opcode hcanonical hop nofun
      cases op <;> exact hof
    obtain ⟨_, owner, name, descriptor, onInterface, rfl⟩ := hform
    exact .call _ _ _ _
  · next hop =>
    obtain ⟨_, name, rfl⟩ := Instruction.isOf_of_opcode hcanonical hop nofun
    exact .push _
  · next hop =>
    obtain ⟨_, code, rfl⟩ := Instruction.isOf_of_opcode hcanonical hop nofun
    exact (Spared.pop 1).bind fun _ => (Spared.orRefuse _ _).bind fun _ => .push _
  · next hop =>
    obtain ⟨_, name, rfl⟩ := Instruction.isOf_of_opcode hcanonical hop nofun
    exact (Spared.pop 1).bind fun _ => .push _
  · next hop =>
    obtain ⟨descriptor, dims, rfl⟩ := Instruction.isOf_of_opcode hcanonical hop nofun
    dsimp only
    rw [if_neg (Int.not_lt.2 (hdims descriptor dims rfl))]
    refine (Spared.pop _).bind fun _ => ?_
    split
    · exact .refuse _
    · exact .push _
  · next hop =>
    obtain ⟨_, name, rfl⟩ := Instruction.isOf_of_opcode hcanonical hop nofun
    exact (Spared.pop 1).bind fun _ => .push _

/-- **A canonical instruction breaks down exactly if it has a negative number of dimensions.** -/
theorem execute_eq_breakdown_iff {insn : Instruction} (hcanonical : insn.isCanonical)
    {owner : String} {f : Frame} {offset : Int} :
    (∃ after, execute owner f insn offset = (after, .error .breakdown)) ↔
      ∃ descriptor dims, insn = .multiArray descriptor dims ∧ dims < 0 := by
  constructor
  · rintro ⟨after, h⟩
    by_contra hnot
    have hdims : ∀ descriptor dims, insn = .multiArray descriptor dims → 0 ≤ dims := by
      intro descriptor dims hinsn
      exact Int.not_lt.1 fun hlt => hnot ⟨descriptor, dims, hinsn, hlt⟩
    -- the form carries the opcode, so a negative count is the only way to break down
    have hspared := spared_perform hcanonical hdims owner offset
    unfold execute at h
    split at h
    · cases h
    · next stop s hrun =>
      cases stop with
      | refused fault => cases h
      | breakdown => exact hspared _ _ hrun
  · rintro ⟨descriptor, dims, rfl, hlt⟩
    refine ⟨f, ?_⟩
    have hrun : (perform owner (.multiArray descriptor dims) offset).run ⟨f, f.depth, [], []⟩ =
        .error .breakdown ⟨f, f.depth, [], []⟩ := by
      unfold perform
      simp only [Instruction.opcode, hlt, if_true]
      rfl
    unfold execute
    rw [hrun]
    rfl

end Tracker

/-! ### Analyses -/

namespace Flow

theorem Pass.lt_of_knows {p : Pass} {n offset : Nat} (ht : Pass.Tidy n p) (h : p.Knows offset) :
    offset < n := by
  by_contra hnot
  rw [Pass.Knows, Pass.frame?, Array.getElem?_eq_none (by rw [ht.frames]; omega)] at h
  cases h

theorem Pass.lined_initial (h : Hierarchy) (r : Routine) : (Pass.initial r h).Lined r := by
  have hstart : Pass.Lined r (Pass.start r.size) := ⟨Pass.tidy_start _, nofun⟩
  unfold Pass.initial
  split
  · exact hstart
  · exact hstart.arrive (Nat.pos_of_ne_zero ‹_›) _

/-- **An analysis breaks down only at an instruction with a negative number of dimensions**, under
any hierarchy. -/
theorem exists_of_analyze_breakdown {h : Hierarchy} {r : Routine} (hr : r.Checked)
    (hcanonical : r.Canonical) (hb : analyze h r = .error .breakdown) :
    ∃ (offset : Nat) (descriptor : String) (dims : Int),
      r.code[offset]? = some (.multiArray descriptor dims) ∧ dims < 0 := by
  rw [analyze_eq] at hb
  rcases Pass.run_cases (patience r) (Pass.lined_initial h r)
      (fun q offset rest hq hwork _ => hq.dequeue hwork)
      (fun q q' offset rest hq hwork _ hvisit => (hq.dequeue hwork).visit hr hvisit) with
    ⟨p, hrun, -⟩ | hrun | ⟨q, offset, rest, stop, hq, hwork, hvisit, hrun⟩
  · rw [hrun] at hb
    change (if p.errors.isEmpty then _ else _) = _ at hb
    split at hb <;> cases hb
  · rw [hrun] at hb
    cases hb
  -- what waited in line has a frame, so it is the instruction that broke down
  · have hknows : (q.dequeue offset rest).Knows offset :=
      hq.work offset (hwork ▸ List.mem_cons_self)
    have hlt := Pass.lt_of_knows (hq.dequeue hwork).tidy hknows
    obtain ⟨before, hbefore⟩ := Option.isSome_iff_exists.1 hknows
    have hinsn : r.code[offset]? = some r.code[offset] := Array.getElem?_eq_getElem hlt
    have hexec := (Pass.visit_error hvisit).2 _ before hinsn hbefore
    have hcanon := hcanonical _ (Array.mem_of_getElem? hinsn)
    obtain ⟨descriptor, dims, heq, hneg⟩ := (Tracker.execute_eq_breakdown_iff hcanon).1 hexec
    exact ⟨offset, descriptor, dims, heq ▸ hinsn, hneg⟩

/-- **The ways in which an analysis ends** under the flat hierarchy. It is never given up. -/
theorem analyze_flat_cases {r : Routine} (hr : r.Checked) :
    (∃ flow, analyze .flat r = .ok flow) ∨
      (∃ e es, analyze .flat r = .error (.refused (.faults (e :: es)))) ∨
      analyze .flat r = .error .breakdown := by
  rcases Pass.run_cases (Q := fun _ => True) (patience r) trivial (fun _ _ _ _ _ _ => trivial)
      (fun _ _ _ _ _ _ _ _ => trivial) with
    ⟨p, hrun, -⟩ | hrun | ⟨q, offset, rest, stop, -, -, hvisit, hrun⟩
  · rw [analyze_eq, hrun]
    change (∃ flow, (if p.errors.isEmpty then _ else _) = _) ∨
      (∃ e es, (if p.errors.isEmpty then _ else _) = _) ∨ (if p.errors.isEmpty then _ else _) = _
    split
    · exact .inl ⟨_, rfl⟩
    · next hne =>
      cases herrors : p.errors.reverse with
      | nil => simp [List.reverse_eq_nil_iff.1 herrors] at hne
      | cons e es => exact .inr (.inl ⟨e, es, rfl⟩)
  · refine absurd ?_ (analyze_ne_restless hr)
    rw [analyze_eq, hrun]
    rfl
  · rw [analyze_eq, hrun, (Pass.visit_error hvisit).1]
    exact .inr (.inr rfl)

end Flow

/-! ### Lists -/

namespace Wire

theorem mapM_eq_error {ε α β : Type} {f : α → Except ε β} {l : List α} {e : ε} :
    l.mapM f = .error e ↔ ∃ before a rest, l = before ++ a :: rest ∧
      (∀ b ∈ before, ∃ c, f b = .ok c) ∧ f a = .error e := by
  induction l with
  | nil =>
    constructor
    · intro h
      cases h
    · rintro ⟨before, a, rest, hl, -⟩
      simp at hl
  | cons a l ih =>
    rw [List.mapM_cons]
    -- the list fails at its first element, or at the element where the rest of it does
    cases ha : f a with
    | error e' =>
      constructor
      · intro h
        exact ⟨[], a, l, rfl, nofun, ha.trans (congrArg Except.error (Except.error.inj h))⟩
      · rintro ⟨before, a', rest, hl, hbefore, ha'⟩
        cases before with
        | nil =>
          obtain ⟨rfl, -⟩ := List.cons.inj hl
          rw [ha] at ha'
          exact congrArg Except.error (Except.error.inj ha')
        | cons b before =>
          obtain ⟨rfl, -⟩ := List.cons.inj hl
          obtain ⟨c, hc⟩ := hbefore a List.mem_cons_self
          rw [ha] at hc
          cases hc
    | ok b =>
      have hmap : (Except.ok b >>= fun b => l.mapM f >>= fun bs => pure (b :: bs)) = .error e ↔
          l.mapM f = .error e := by
        cases l.mapM f with
        | ok bs => exact ⟨nofun, nofun⟩
        | error e' => exact ⟨fun h => congrArg Except.error (Except.error.inj h),
            fun h => congrArg Except.error (Except.error.inj h)⟩
      rw [hmap, ih]
      constructor
      · rintro ⟨before, a', rest, rfl, hbefore, ha'⟩
        exact ⟨a :: before, a', rest, rfl, List.forall_mem_cons.2 ⟨⟨b, ha⟩, hbefore⟩, ha'⟩
      · rintro ⟨before, a', rest, hl, hbefore, ha'⟩
        cases before with
        | nil =>
          obtain ⟨rfl, -⟩ := List.cons.inj hl
          rw [ha] at ha'
          cases ha'
        | cons b' before =>
          obtain ⟨rfl, rfl⟩ := List.cons.inj hl
          exact ⟨before, a', rest, rfl, (List.forall_mem_cons.1 hbefore).2, ha'⟩

theorem exists_of_mem_mapM {ε α β : Type} {f : α → Except ε β} {l : List α} {l' : List β}
    (h : l.mapM f = .ok l') {b : β} (hb : b ∈ l') : ∃ a, f a = .ok b := by
  induction l generalizing l' with
  | nil =>
    obtain rfl := Except.ok.inj h
    cases hb
  | cons a l ih =>
    rw [List.mapM_cons] at h
    obtain ⟨b', hb', h⟩ := bind_eq_ok.1 h
    obtain ⟨rest, hrest, h⟩ := bind_eq_ok.1 h
    obtain rfl := Except.ok.inj h
    rcases List.mem_cons.1 hb with rfl | hb
    · exact ⟨a, hb'⟩
    · exact ih hrest hb

/-- What reading makes of one entry of a list. -/
def entryOf (form? : Option RoutineForm) : Answer WireError Routine := do
  Answer.ofExcept (toRoutine (← Answer.require form?))

theorem entryOf_eq_breakdown_iff {form? : Option RoutineForm} :
    entryOf form? = .error .breakdown ↔ form? = none := by
  cases form? with
  | none => exact ⟨fun _ => rfl, fun _ => rfl⟩
  | some form =>
    refine ⟨fun h => ?_, nofun⟩
    change Answer.ofExcept (toRoutine form) = _ at h
    cases hread : toRoutine form with
    | ok r => rw [hread] at h; cases h
    | error e => rw [hread] at h; cases h

theorem entryOf_eq_ok {form? : Option RoutineForm} {r : Routine} :
    entryOf form? = .ok r ↔ ∃ form, form? = some form ∧ toRoutine form = .ok r := by
  cases form? with
  | none => exact ⟨nofun, nofun⟩
  | some form =>
    change Answer.ofExcept (toRoutine form) = _ ↔ _
    cases hread : toRoutine form with
    | ok r' => simp [Answer.ofExcept, hread]
    | error e => simp [Answer.ofExcept, Answer.refuse, hread]

namespace Codec

variable {c : Codec} {bytes : List UInt8}

theorem decodeAll_eq :
    c.decodeAll bytes = Answer.ofExcept (c.readAll bytes) >>= fun forms => forms.mapM entryOf := rfl

/-- **Reading a list breaks down exactly at a null entry** that comes after entries that are all
read. -/
theorem decodeAll_eq_breakdown_iff :
    c.decodeAll bytes = .error .breakdown ↔ ∃ before rest,
      c.readAll bytes = .ok (before ++ none :: rest) ∧
      ∀ form? ∈ before, ∃ form r, form? = some form ∧ toRoutine form = .ok r := by
  have hbefore {before : List (Option RoutineForm)} :
      (∀ form? ∈ before, ∃ r, entryOf form? = .ok r) ↔
        ∀ form? ∈ before, ∃ form r, form? = some form ∧ toRoutine form = .ok r := by
    simp only [entryOf_eq_ok]
    exact forall₂_congr fun form? _ => exists_comm.trans (by simp)
  rw [decodeAll_eq]
  cases hforms : c.readAll bytes with
  | error e => exact ⟨nofun, nofun⟩
  | ok forms =>
    change forms.mapM entryOf = _ ↔ _
    rw [mapM_eq_error]
    constructor
    · rintro ⟨before, form?, rest, rfl, hread, hentry⟩
      obtain rfl := entryOf_eq_breakdown_iff.1 hentry
      exact ⟨before, rest, rfl, hbefore.1 hread⟩
    · rintro ⟨before, rest, heq, hread⟩
      exact ⟨before, none, rest, Except.ok.inj heq, hbefore.2 hread, rfl⟩

/-- What is read from a list is read from records. -/
theorem exists_form_of_decodeAll {rs : List Routine} (h : c.decodeAll bytes = .ok rs)
    {r : Routine} (hr : r ∈ rs) : ∃ form, toRoutine form = .ok r := by
  rw [decodeAll_eq] at h
  obtain ⟨forms, -, hmap⟩ := bind_eq_ok.1 h
  obtain ⟨form?, hentry⟩ := exists_of_mem_mapM hmap hr
  obtain ⟨form, -, hread⟩ := entryOf_eq_ok.1 hentry
  exact ⟨form, hread⟩

end Codec

/-! ### Labels -/

/-- The number of labels that stand in some forms. -/
def labelCount (insns : List InsnForm) : Nat :=
  insns.countP (·.marker = "label")

theorem size_placedLabels (insns : List InsnForm) :
    (placedLabels insns).size = labelCount insns := by
  simp [placedLabels, labelCount, List.countP_eq_length_filter]

theorem labelAt_eq_error {labels : Array Label} {number number' : Int}
    (h : labelAt labels number = .error (.badLabel number')) :
    number' = number ∧ (number < 0 ∨ labels.size ≤ number) := by
  unfold labelAt at h
  split at h
  · cases h
  next hnone =>
  obtain rfl := InsnFault.badLabel.inj (Except.error.inj h)
  refine ⟨rfl, ?_⟩
  split at hnone
  · next hneg => exact .inl hneg
  · have hle := Array.getElem?_eq_none_iff.1 hnone
    right
    omega

/-- A label that an operation refers to, and that does not exist. -/
structure Missing (labels : Array Label) (form : InsnForm) (number : Int) : Prop where
  operation : form.marker = ""
  referred : number = form.label ∨ number ∈ form.labels
  outside : number < 0 ∨ labels.size ≤ number

theorem bind_eq_error {ε α β : Type} {x : Except ε α} {f : α → Except ε β} {e : ε} :
    (x >>= f) = .error e ↔ x = .error e ∨ ∃ a, x = .ok a ∧ f a = .error e := by
  cases x with
  | ok a =>
    refine ⟨fun h => .inr ⟨a, rfl, h⟩, ?_⟩
    rintro (h | ⟨a', ha, h⟩)
    · cases h
    · exact Except.ok.inj ha ▸ h
  | error e' =>
    constructor
    · intro h
      exact .inl (congrArg Except.error (Except.error.inj h))
    · rintro (h | ⟨a, ha, -⟩)
      · exact congrArg Except.error (Except.error.inj h)
      · cases ha

theorem constantOf_ne_badLabel (form : InsnForm) (number : Int) :
    constantOf form ≠ .error (.badLabel number) := by
  intro h
  unfold constantOf at h
  split at h
  case h_6 => split at h <;> cases h
  all_goals cases h

theorem missing_of_operationOf {labels : Array Label} {form : InsnForm} {number : Int}
    (hmarker : form.marker = "") (h : operationOf labels form = .error (.badLabel number)) :
    Missing labels form number := by
  have hlabel {number' : Int} (hat : labelAt labels number' = .error (.badLabel number))
      (href : number' = form.label ∨ number' ∈ form.labels) : Missing labels form number := by
    obtain ⟨rfl, houtside⟩ := labelAt_eq_error hat
    exact ⟨hmarker, href, houtside⟩
  have hlabels (hmap : form.labels.mapM (labelAt labels) = .error (.badLabel number)) :
      Missing labels form number := by
    obtain ⟨before, number', rest, hsplit, -, hat⟩ := mapM_eq_error.1 hmap
    exact hlabel hat (.inr (hsplit ▸ List.mem_append_right _ List.mem_cons_self))
  -- only jumps and switches look labels up; a constant fails for another reason
  unfold operationOf at h
  dsimp only at h
  split at h
  · cases h
  split at h
  case h_9 =>
    rcases bind_eq_error.1 h with h | ⟨c, -, h⟩
    · exact absurd h (constantOf_ne_badLabel form number)
    · cases h
  case h_10 =>
    rcases bind_eq_error.1 h with h | ⟨target, -, h⟩
    · exact hlabel h (.inl rfl)
    · cases h
  case h_11 =>
    rcases bind_eq_error.1 h with h | ⟨fallback, -, h⟩
    · exact hlabel h (.inl rfl)
    rcases bind_eq_error.1 h with h | ⟨targets, -, h⟩
    · exact hlabels h
    · cases h
  case h_12 =>
    rcases bind_eq_error.1 h with h | ⟨fallback, -, h⟩
    · exact hlabel h (.inl rfl)
    rcases bind_eq_error.1 h with h | ⟨targets, -, h⟩
    · exact hlabels h
    · split at h <;> cases h
  all_goals cases h

/-- A refusal of a label by one instruction, when there are labels left. -/
theorem missing_of_instructionOf {labels : Array Label} {placed : Nat} {form : InsnForm}
    {number : Int} (hleft : form.marker = "label" → placed < labels.size)
    (h : instructionOf labels placed form = .error (.badLabel number)) :
    Missing labels form number := by
  unfold instructionOf at h
  split at h
  · next hmarker =>
    rw [Array.getElem?_eq_getElem (hleft hmarker)] at h
    cases h
  · cases h
  · cases h
  · next hmarker =>
    refine missing_of_operationOf hmarker ?_
    cases hop : operationOf labels form with
    | ok insn => rw [hop] at h; cases h
    | error e => rw [hop] at h; exact congrArg Except.error (Except.error.inj h)
  · cases h

/-- What one instruction adds to the labels handed out. -/
theorem placed_of_instructionOf {labels : Array Label} {placed placed' : Nat} {form : InsnForm}
    {insn : Instruction} (h : instructionOf labels placed form = .ok (insn, placed')) :
    placed' = placed + labelCount [form] := by
  unfold instructionOf at h
  split at h
  · next hmarker =>
    split at h
    · obtain ⟨-, rfl⟩ := Prod.mk.inj (Except.ok.inj h)
      simp [labelCount, hmarker]
    · cases h
  · next hmarker =>
    obtain ⟨-, rfl⟩ := Prod.mk.inj (Except.ok.inj h)
    simp [labelCount, hmarker]
  · next hmarker =>
    obtain ⟨-, rfl⟩ := Prod.mk.inj (Except.ok.inj h)
    simp [labelCount, hmarker]
  · next hmarker =>
    cases hop : operationOf labels form with
    | error e => rw [hop] at h; cases h
    | ok insn' =>
      rw [hop] at h
      obtain ⟨-, rfl⟩ := Prod.mk.inj (Except.ok.inj h)
      simp [labelCount, hmarker]
  · cases h

/-- **A refusal of a label is about an operation** that refers to a label that does not exist. The
labels for the places where labels stand never run out. -/
theorem badLabel_of_instructionsOf {key key' : String} {labels : Array Label}
    {offset placed k : Nat} {forms : List InsnForm} {code : Array (Option Instruction)}
    {number : Int} (hcount : placed + labelCount forms ≤ labels.size)
    (h : instructionsOf key labels offset placed forms code =
      .error (.instruction key' k (.badLabel number))) :
    ∃ j form, k = offset + j ∧ forms[j]? = some form ∧ Missing labels form number := by
  induction forms generalizing offset placed code with
  | nil => cases h
  | cons form rest ih =>
    -- the invariant: the labels handed out and those still to come are all there are
    have hsum : labelCount (form :: rest) = labelCount [form] + labelCount rest := by
      rw [labelCount, labelCount, labelCount, ← List.countP_append, List.singleton_append]
    unfold instructionsOf at h
    split at h
    · next insn placed' hinsn =>
      have hplaced := placed_of_instructionOf hinsn
      obtain ⟨j, form', rfl, hform', hmissing⟩ := ih (by omega) h
      exact ⟨j + 1, form', by omega, hform', hmissing⟩
    -- a place for a label would have one left, so the fault is that of an operation
    · next fault hinsn =>
      obtain ⟨-, rfl, rfl⟩ := WireError.instruction.inj (Except.error.inj h)
      refine ⟨0, form, rfl, rfl, missing_of_instructionOf (fun hmarker => ?_) hinsn⟩
      have hone : labelCount [form] = 1 := by simp [labelCount, hmarker]
      omega

theorem blockOf_ne_instruction (labels : Array Label) (index : Nat) (form : BlockForm)
    (key : String) (offset : Nat) (fault : InsnFault) :
    blockOf labels index form ≠ .error (.instruction key offset fault) := by
  intro h
  unfold blockOf at h
  dsimp only at h
  rcases bind_eq_error.1 h with h | ⟨start, -, h⟩
  · split at h <;> cases h
  rcases bind_eq_error.1 h with h | ⟨stop, -, h⟩
  · split at h <;> cases h
  rcases bind_eq_error.1 h with h | ⟨handler, -, h⟩
  · split at h <;> cases h
  · cases h

theorem badLabel_of_toRoutine {form : RoutineForm} {key : String} {offset : Nat} {number : Int}
    (h : toRoutine form = .error (.instruction key offset (.badLabel number))) :
    ∃ insn, form.insns[offset]? = some insn ∧ Missing (placedLabels form.insns) insn number := by
  unfold toRoutine at h
  split at h
  · cases h
  rcases bind_eq_error.1 h with h | ⟨code, -, h⟩
  · obtain ⟨j, insn, rfl, hinsn, hmissing⟩ := badLabel_of_instructionsOf
      (by simp [size_placedLabels]) h
    rw [Nat.zero_add]
    exact ⟨insn, hinsn, hmissing⟩
  rcases bind_eq_error.1 h with h | ⟨blocks, -, h⟩
  · obtain ⟨-, p, -, -, -, hblock⟩ := mapM_eq_error.1 h
    exact (blockOf_ne_instruction _ _ _ _ _ _ hblock).elim
  · split at h <;> cases h

/-! ### Documents -/

/-- **What can come of analysing a routine.** Under any hierarchy the analysis breaks down only if
an instruction has a negative number of dimensions. Under the flat hierarchy it is never given up:
there is a data flow, or a list of faults, or it breaks down. -/
structure Accounted (r : Routine) : Prop where
  breaks : ∀ h, Flow.analyze h r = .error .breakdown →
    ∃ (offset : Nat) (descriptor : String) (dims : Int),
      r.code[offset]? = some (.multiArray descriptor dims) ∧ dims < 0
  ends : (∃ flow, Flow.analyze .flat r = .ok flow) ∨
    (∃ e es, Flow.analyze .flat r = .error (.refused (.faults (e :: es)))) ∨
    Flow.analyze .flat r = .error .breakdown

theorem accounted_of_toRoutine {form : RoutineForm} {r : Routine} (h : toRoutine form = .ok r) :
    Accounted r := by
  obtain ⟨hmade, hcanonical⟩ := canonical_of_toRoutine h
  exact ⟨fun _ => Flow.exists_of_analyze_breakdown hmade.checked hcanonical,
    Flow.analyze_flat_cases hmade.checked⟩

/-- **What can come of loading a document and analysing what it holds**, whatever its bytes are and
however records are kept in them. Reading a single routine gives it or a refusal, and a list of them
breaks down only at a null entry. Every routine that is read can be analysed, up to the dimensions
of arrays. -/
theorem loads_accounted (c : Codec) (bytes : List UInt8) :
    (∀ r, c.decode bytes = .ok r → Accounted r) ∧
    (∀ rs, c.decodeAll bytes = .ok rs → ∀ r ∈ rs, Accounted r) ∧
    (c.decodeAll bytes = .error .breakdown ↔ ∃ before rest,
      c.readAll bytes = .ok (before ++ none :: rest) ∧
      ∀ form? ∈ before, ∃ form r, form? = some form ∧ toRoutine form = .ok r) ∧
    ∀ form key offset number,
      toRoutine form = .error (.instruction key offset (.badLabel number)) →
      ∃ insn, form.insns[offset]? = some insn ∧
        Missing (placedLabels form.insns) insn number := by
  refine ⟨fun r h => ?_, fun rs h r hr => ?_, Codec.decodeAll_eq_breakdown_iff,
    fun form key offset number => badLabel_of_toRoutine⟩
  · obtain ⟨form, -, hform⟩ := bind_eq_ok.1 h
    exact accounted_of_toRoutine hform
  · obtain ⟨form, hform⟩ := Codec.exists_form_of_decodeAll h hr
    exact accounted_of_toRoutine hform

/-- Whether an answer is a breakdown. -/
def isBreakdown {ε α : Type} : Answer ε α → Bool
  | .error .breakdown => true
  | _ => false

theorem eq_breakdown {ε α : Type} {x : Answer ε α} (h : isBreakdown x = true) :
    x = .error .breakdown := by
  unfold isBreakdown at h
  split at h
  · rfl
  · cases h

/-- The document of a routine that creates an array with `-1` dimensions. -/
def negativeDims : List UInt8 :=
  [167, 1, 1, 2, 97, 84, 3, 97, 102, 4, 99, 40, 41, 86, 5, 8, 6, 0, 8, 131, 163, 1, 24, 197, 3, 32,
    7, 98, 91, 73, 161, 1, 24, 87, 161, 1, 24, 177]

/-- **A list with a null entry breaks down, and so does the analysis of an array with `-1`
dimensions** that was loaded without a complaint. -/
theorem breaks_nullEntry_negativeDims :
    decodeAll [0x81, 0xf6] = .error .breakdown ∧
      ∃ r, decode negativeDims = .ok r ∧ Flow.analyze .flat r = .error .breakdown := by
  refine ⟨eq_breakdown (by decide +kernel), ?_⟩
  obtain ⟨r, hr, hbreaks⟩ : ∃ r, decode negativeDims = .ok r ∧
      isBreakdown (Flow.analyze .flat r) = true :=
    exists_ok_of_any (by decide +kernel)
  exact ⟨r, hr, eq_breakdown hbreaks⟩

end Wire

end Outliner
