import Outliner.Proofs.Soundness

/-!
# Passing through code

How a run passes through code that neither jumps nor calls other routines, in a world that lets it:
one that does not cancel the run and whose observer never stops it (`World.Patient`). Such an
observer is told of steps, but this changes nothing of what a routine computes with.

`Passes` says what an activation gets to by passing through code, wherever in its routine the code
stands. Passages compose (`Passes.append`), and there is one lemma for each instruction that moves
values around. A passage that comes to a return ends the activation (`Passes.returns`).
-/

namespace Outliner

/-- A world that lets a run go on: nobody cancels it, and an observer does not stop it. -/
structure World.Patient (w : World) : Prop where
  proceeds : ∀ o, w.observer = some o → ∀ count event, o.proceed count event = true
  cancelled : 0 < w.pollInterval → w.cancelled = false

namespace Run

variable {w : World} {s s' s'' : Run}

/-- A run gets from one state to another. -/
def Reaches (w : World) (s s' : Run) : Prop := ∃ k, s.run w k = (s', none)

theorem Reaches.refl (s : Run) : Reaches w s s := ⟨0, rfl⟩

theorem run_succ_of_step {k : Nat} (h : s.step w = (s', none)) : s.run w (k + 1) = s'.run w k := by
  rw [run, h]

theorem Reaches.of_step (h : s.step w = (s', none)) : Reaches w s s' :=
  ⟨1, run_succ_of_step h⟩

/-- A run goes on from a state it gets to. -/
theorem run_add {k : Nat} (h : s.run w k = (s', none)) (l : Nat) :
    s.run w (k + l) = s'.run w l := by
  induction k generalizing s with
  | zero =>
    obtain rfl : s = s' := congrArg Prod.fst h
    rw [Nat.zero_add]
  | succ k ih =>
    rw [Nat.succ_add]
    rw [run] at h ⊢
    rcases hstep : s.step w with ⟨s₁, ending⟩
    rw [hstep] at h
    cases ending with
    | none => exact ih h
    | some e => cases h

theorem Reaches.trans (h : Reaches w s s') (h' : Reaches w s' s'') : Reaches w s s'' := by
  obtain ⟨k, hk⟩ := h
  obtain ⟨l, hl⟩ := h'
  exact ⟨k + l, (run_add hk l).trans hl⟩

/-! ### Steps that an observer may see -/

/-- **The state of a run**: the heap, the static fields and the running activation `f` at an offset,
with `rest` below it. Whether `f` has passed a line marker that nobody was told of is left open, and
so is everything that only observers count. -/
structure At (s : Run) (heap : Heap) (statics : List (String × Value)) (f : Activation)
    (offset : Nat) (rest : List Activation) : Prop where
  heap : s.heap = heap
  statics : s.statics = statics
  frames : ∃ fresh, s.frames = { f with ip := offset, freshLine := fresh } :: rest

variable {h h' : Heap} {statics statics' : List (String × Value)} {f f' : Activation}
  {offset : Nat} {rest : List Activation} {insn : Instruction} {v : Value}

theorem tell_proceeds (hw : w.Patient) {o : Observer} (ho : w.observer = some o) (e : Event)
    (s : Run) : ∃ s', s.tell o e = (s', true) ∧ s'.heap = s.heap ∧ s'.statics = s.statics ∧
      s'.frames = s.frames := by
  refine ⟨_, Prod.ext rfl ?_, rfl, rfl, rfl⟩
  exact hw.proceeds o ho _ _

theorem tellCall_proceeds (hw : w.Patient) (key : String) (count : Nat) (native : Bool) (s : Run) :
    ∃ s', s.tellCall w key count native = (s', true) ∧ s'.heap = s.heap ∧ s'.statics = s.statics ∧
      s'.frames = s.frames := by
  unfold tellCall
  split
  · next o ho =>
    split
    · exact tell_proceeds hw ho _ s
    · exact ⟨s, rfl, rfl, rfl, rfl⟩
  · exact ⟨s, rfl, rfl, rfl, rfl⟩

theorem tellReturn_proceeds (hw : w.Patient) (key : String) (v : Value) (s : Run) :
    ∃ s', s.tellReturn w key v = (s', true) ∧ s'.heap = s.heap ∧ s'.statics = s.statics ∧
      s'.frames = s.frames := by
  unfold tellReturn
  split
  · next o ho =>
    split
    · exact tell_proceeds hw ho _ s
    · exact ⟨s, rfl, rfl, rfl, rfl⟩
  · exact ⟨s, rfl, rfl, rfl, rfl⟩

theorem tellStep_proceeds (hw : w.Patient) {o : Observer} (ho : w.observer = some o)
    (f : Activation) (op : Opcode) (s : Run) :
    ∃ s' fresh, s.tellStep o f op = (s', { f with freshLine := fresh }, true) ∧
      s'.heap = s.heap ∧ s'.statics = s.statics := by
  have hproceed := hw.proceeds o ho
  unfold tellStep
  dsimp only [tell]
  split
  · exact ⟨_, false, Prod.ext rfl (Prod.ext rfl (hproceed _ _)), rfl, rfl⟩
  · exact ⟨s, f.freshLine, rfl, rfl, rfl⟩
  · split
    · exact ⟨_, f.freshLine, rfl, rfl, rfl⟩
    · exact ⟨_, false, Prod.ext rfl (Prod.ext rfl (hproceed _ _)), rfl, rfl⟩
  · split
    · exact ⟨_, false, Prod.ext rfl (Prod.ext rfl (hproceed _ _)), rfl, rfl⟩
    · exact ⟨s, f.freshLine, rfl, rfl, rfl⟩

theorem poll_proceeds (hw : w.Patient) (s : Run) : s.poll w = (s, true) := by
  unfold poll
  rw [if_neg]
  intro hpoll
  simp only [Bool.and_eq_true, decide_eq_true_eq] at hpoll
  rw [hw.cancelled hpoll.1] at hpoll
  cases hpoll.2

/-- **A step executes the instruction that the running activation has come to.** -/
theorem step_eq_execute (hw : w.Patient) (hs : s.At h statics f offset rest)
    (hinsn : f.routine.code[offset]? = some insn) (hmarker : insn.isMarker = false) :
    ∃ (s' : Run) (fresh : Bool), s'.heap = h ∧ s'.statics = statics ∧
      s.step w = s'.execute w insn { f with ip := offset, freshLine := fresh } rest := by
  obtain ⟨rfl, rfl, fresh, hframes⟩ := hs
  -- a real instruction is not skipped over
  have hstep : s.step w = s.advance w insn { f with ip := offset, freshLine := fresh } rest := by
    unfold step
    rw [hframes]
    dsimp only
    rw [hinsn]
    split
    · next heq => cases heq
    · next heq =>
      cases heq
      cases hmarker
    · next heq =>
      cases heq
      rw [if_neg (by simp [hmarker])]
  rw [hstep]
  unfold advance
  rw [poll_proceeds hw]
  dsimp only
  -- without an observer nobody is told; with one, it lets the run go on
  split
  · exact ⟨s, fresh, rfl, rfl, rfl⟩
  · next o ho =>
    obtain ⟨s', fresh', htell, hheap, hstatics⟩ := tellStep_proceeds hw ho
      { f with ip := offset, freshLine := fresh } insn.opcode s
    rw [htell]
    exact ⟨s', fresh', hheap, hstatics, rfl⟩

section Execute

variable {p : Workplace}

theorem execute_of_next
    (hrun : (Exec.perform w.classes insn).run ⟨f, s.heap, s.statics⟩ = .ok .next p) :
    s.execute w insn f rest =
      ({ s with heap := p.heap, statics := p.statics, frames := p.frame :: rest }, none) := by
  unfold execute
  dsimp only
  rw [hrun]
  rfl

theorem execute_of_call {c : Call}
    (hrun : (Exec.perform w.classes insn).run ⟨f, s.heap, s.statics⟩ = .ok (.call c) p) :
    s.execute w insn f rest =
      ({ s with heap := p.heap, statics := p.statics, frames := p.frame :: rest } : Run).call w
        c := by
  unfold execute
  dsimp only
  rw [hrun]

theorem execute_of_leave
    (hrun : (Exec.perform w.classes insn).run ⟨f, s.heap, s.statics⟩ = .ok (.leave v) p) :
    s.execute w insn f rest =
      ({ s with heap := p.heap, statics := p.statics, frames := rest } : Run).leave w p.frame
        v := by
  unfold execute
  dsimp only
  rw [hrun]

end Execute

/-- A built-in method called by the running activation pushes its result. -/
theorem call_of_native (hw : w.Patient) {c : Call} {n : Native} (hs : s.frames = f :: rest)
    (hdepth : (rest.length : Int) + 2 ≤ w.maxDepth)
    (hresolve : w.resolveCall s.heap c = some (.native n)) (hn : n s.heap c.args = (h', .value v))
    (hwants : c.wantsResult = true) :
    ∃ s' : Run, s.call w c = (s', none) ∧ s'.heap = h' ∧ s'.statics = s.statics ∧
      s'.frames = f.pushValue v :: rest := by
  -- there is room for the native, although it gets no activation of its own
  have hroom : ¬ w.maxDepth < s.frames.length + 1 := by
    rw [hs, List.length_cons]
    push_cast
    omega
  obtain ⟨s₁, htell, hheap, hstatics, hframes⟩ := tellCall_proceeds hw
    (qualifiedName c.owner c.name c.descriptor) c.args.length true s
  obtain ⟨s₂, htell', hheap', hstatics', hframes'⟩ := tellReturn_proceeds hw
    (qualifiedName c.owner c.name c.descriptor) v { s₁ with heap := h' }
  -- the observer hears of the call before the native is run, and of the return after it
  have henter : s.enter w c = (s₂, .finished v) := by
    unfold enter
    dsimp only
    rw [hresolve]
    dsimp only
    rw [if_neg hroom, htell]
    dsimp only
    unfold callNative
    rw [hheap, hn]
    dsimp only
    rw [htell']
  have hframes₂ : s₂.frames = f :: rest := by rw [hframes', hframes, hs]
  unfold call
  rw [henter]
  dsimp only [deliver, goesOn]
  rw [hframes₂, hwants]
  exact ⟨_, rfl, hheap', hstatics'.trans hstatics, rfl⟩

/-- **The running activation returns a value** and leaves a heap and static fields behind. The value
goes to the activation below it or is the result of the run. -/
def Returns (w : World) (s : Run) (heap : Heap) (statics : List (String × Value)) (v : Value) :
    Prop :=
  match s.frames with
  | [] => False
  | [_] => ∃ k s', s.run w k = (s', some (.ok v)) ∧ s'.heap = heap ∧ s'.statics = statics
  | f :: g :: rest => ∃ s', Reaches w s s' ∧ s'.heap = heap ∧ s'.statics = statics ∧
      s'.frames = (if f.wantsResult then g.pushValue v else g) :: rest

end Run

/-! ### Passages -/

/-- The activation with another stack. -/
def Activation.on (f : Activation) (stack : List Value) : Activation := { f with stack := stack }

namespace Activation

@[simp] theorem on_self (f : Activation) : f.on f.stack = f := rfl

variable {f f' : Activation} {slot : Int} {v : Value}

theorem store?_eq_some (h : f.store? slot v = some f') : 0 ≤ slot ∧ slot < 0x80000000 ∧
    f' = { f with
      locals := storeIn f.locals slot v, localCount := max f.localCount (slot.toNat + 2) } := by
  unfold store? at h
  split at h
  · next hslot =>
    simp only [Bool.and_eq_true, decide_eq_true_eq] at hslot
    exact ⟨hslot.1, hslot.2, (Option.some.inj h).symm⟩
  · cases h

end Activation

/-- The code stands in a routine from an offset on. -/
def Routine.Holds (r : Routine) (offset : Nat) (code : List Instruction) : Prop :=
  ∀ q insn, code[q]? = some insn → r.code[offset + q]? = some insn

theorem Routine.Holds.append {r : Routine} {offset : Nat} {code code' : List Instruction}
    (h : r.Holds offset (code ++ code')) :
    r.Holds offset code ∧ r.Holds (offset + code.length) code' := by
  refine ⟨fun q insn hq => h q insn ?_, fun q insn hq => ?_⟩
  · rw [List.getElem?_append_left (List.getElem?_eq_some_iff.1 hq).1, hq]
  · rw [Nat.add_assoc]
    refine h _ insn ?_
    rw [List.getElem?_append_right (Nat.le_add_right _ _), Nat.add_sub_cancel_left, hq]

/-- **An activation passes through code** and changes the heap on the way. The offset of `f` is of
no account: the code may stand anywhere in the routine. The calls that built-in methods take must be
allowed to nest. -/
structure Passes (w : World) (code : List Instruction) (h : Heap) (f : Activation) (h' : Heap)
    (f' : Activation) : Prop where
  routine : f'.routine = f.routine
  wantsResult : f'.wantsResult = f.wantsResult
  reaches : ∀ (s : Run) (statics : List (String × Value)) (offset : Nat) (rest : List Activation),
    s.At h statics f offset rest → (rest.length : Int) + 2 ≤ w.maxDepth →
    f.routine.Holds offset code →
    ∃ s', Run.Reaches w s s' ∧ s'.At h' statics f' (offset + code.length) rest

namespace Passes

variable {w : World} {code code' : List Instruction} {h h' h'' : Heap} {f f' f'' : Activation}
  {insn : Instruction} {v : Value} {vs : List Value}

theorem nil (w : World) (h : Heap) (f : Activation) : Passes w [] h f h f where
  routine := rfl
  wantsResult := rfl
  reaches s _ _ _ hs _ _ := ⟨s, .refl s, hs⟩

theorem append (hp : Passes w code h f h' f') (hp' : Passes w code' h' f' h'' f'') :
    Passes w (code ++ code') h f h'' f'' where
  routine := hp'.routine.trans hp.routine
  wantsResult := hp'.wantsResult.trans hp.wantsResult
  reaches := by
    intro s statics offset rest hs hdepth hholds
    obtain ⟨hfirst, hsecond⟩ := hholds.append
    rw [← hp.routine] at hsecond
    obtain ⟨s', hreach, hs'⟩ := hp.reaches s statics offset rest hs hdepth hfirst
    obtain ⟨s'', hreach', hs''⟩ := hp'.reaches s' statics _ rest hs' hdepth hsecond
    refine ⟨s'', hreach.trans hreach', ?_⟩
    rw [List.length_append, ← Nat.add_assoc]
    exact hs''

/-- A passage that begins with one instruction. -/
theorem cons (hp : Passes w [insn] h f h' f') (hp' : Passes w code h' f' h'' f'') :
    Passes w (insn :: code) h f h'' f'' :=
  hp.append hp'

/-- An instruction that goes on in the activation. -/
theorem of_perform (hw : w.Patient) (hmarker : insn.isMarker = false)
    (hrun : ∀ ip fresh statics,
      (Exec.perform w.classes insn).run ⟨{ f with ip := ip, freshLine := fresh }, h, statics⟩ =
        .ok .next ⟨{ f' with ip := ip + 1, freshLine := fresh }, h', statics⟩)
    (routine : f'.routine = f.routine) (wantsResult : f'.wantsResult = f.wantsResult) :
    Passes w [insn] h f h' f' where
  routine := routine
  wantsResult := wantsResult
  reaches := by
    intro s statics offset rest hs hdepth hholds
    obtain ⟨s', fresh, rfl, rfl, hstep⟩ :=
      Run.step_eq_execute hw hs (hholds 0 insn rfl) hmarker
    rw [Run.execute_of_next (hrun _ _ _)] at hstep
    exact ⟨_, .of_step hstep, rfl, rfl, fresh, rfl⟩

/-- A call of a built-in method that gives a result. -/
theorem of_native (hw : w.Patient) {c : Call} {n : Native} (hmarker : insn.isMarker = false)
    (hrun : ∀ ip fresh statics,
      (Exec.perform w.classes insn).run ⟨{ f with ip := ip, freshLine := fresh }, h, statics⟩ =
        .ok (.call c) ⟨{ f' with ip := ip + 1, freshLine := fresh }, h, statics⟩)
    (hresolve : w.resolveCall h c = some (.native n)) (hn : n h c.args = (h', .value v))
    (hwants : c.wantsResult = true) (routine : f'.routine = f.routine)
    (wantsResult : f'.wantsResult = f.wantsResult) :
    Passes w [insn] h f h' (f'.on (v.cells ++ f'.stack)) where
  routine := routine
  wantsResult := wantsResult
  reaches := by
    intro s statics offset rest hs hdepth hholds
    obtain ⟨s', fresh, rfl, rfl, hstep⟩ :=
      Run.step_eq_execute hw hs (hholds 0 insn rfl) hmarker
    rw [Run.execute_of_call (hrun _ _ _)] at hstep
    obtain ⟨s'', hcall, hheap, hstatics, hframes⟩ := @Run.call_of_native w { s' with
      frames := { f' with ip := offset + 1, freshLine := fresh } :: rest } h' _ rest v hw c n rfl
      hdepth hresolve hn hwants
    refine ⟨s'', .of_step (hstep.trans hcall), hheap, hstatics, fresh, hframes.trans ?_⟩
    simp only [Activation.pushValue, Activation.on, Value.cells]
    split <;> rfl

/-- A passage that comes to a return. -/
theorem returns (hw : w.Patient) (hp : Passes w code h f h' (f'.on (v :: vs)))
    {s : Run} {statics : List (String × Value)} {offset : Nat} {rest : List Activation}
    (hs : s.At h statics f offset rest) (hdepth : (rest.length : Int) + 2 ≤ w.maxDepth)
    (hholds : f.routine.Holds offset (code ++ [.plain (.returnValue .ref)])) :
    s.Returns w h' statics v := by
  -- returning takes the array off and leaves
  have hreturn (ip : Nat) (fresh : Bool) (statics : List (String × Value)) :
      (Exec.perform w.classes (.plain (.returnValue .ref))).run
        ⟨{ f'.on (v :: vs) with ip := ip, freshLine := fresh }, h', statics⟩ =
      .ok (.leave v) ⟨{ f'.on vs with ip := ip + 1, freshLine := fresh }, h', statics⟩ := rfl
  obtain ⟨hfirst, hlast⟩ := hholds.append
  rw [← hp.routine] at hlast
  obtain ⟨s', hreach, hs'⟩ := hp.reaches s statics offset rest hs hdepth hfirst
  obtain ⟨s'', fresh, rfl, rfl, hstep⟩ := Run.step_eq_execute hw hs' (hlast 0 _ rfl) rfl
  rw [Run.execute_of_leave (hreturn _ _ _)] at hstep
  obtain ⟨s₁, hleave, hheap, hstatics, hframes⟩ := Run.tellReturn_proceeds hw f'.routine.key v
    { s'' with frames := rest }
  obtain ⟨-, -, started, hstart⟩ := hs
  unfold Run.leave at hstep
  dsimp only [Activation.on] at hstep
  rw [hleave] at hstep
  dsimp only at hstep
  rw [hframes] at hstep
  unfold Run.Returns
  rw [hstart]
  -- the outermost activation ends the run, any other hands the value to its caller
  cases rest with
  | nil =>
    obtain ⟨k, hk⟩ := hreach
    refine ⟨k + 1, { s₁ with frames := [] }, (Run.run_add hk 1).trans ?_, hheap, hstatics⟩
    rw [Run.run, hstep]
    rfl
  | cons g rest =>
    have hwants : f'.wantsResult = f.wantsResult := hp.wantsResult
    refine ⟨_, hreach.trans (.of_step hstep), ?_⟩
    rw [hwants]
    cases hresult : f.wantsResult <;> dsimp only [Run.deliver] <;> rw [hframes]
    · exact ⟨hheap, hstatics, hframes⟩
    · exact ⟨hheap, hstatics, rfl⟩

end Passes

/-! ### Single instructions -/

theorem Value.isOfKind_slotKind {t : JType} {v : Value} (ht : t.isDefinite) (hv : v.hasType t) :
    v.isOfKind t.slotKind := by
  cases t with
  | prim p =>
    cases p <;> cases v <;> first | rfl | exact absurd hv (by simp [hasType, JType.isReference])
  | array | object | null =>
    simpa [hasType, isOfKind, JType.slotKind, JType.isReference] using hv
  | _ => cases ht

/-- The shortest way to push a small integer pushes it. -/
theorem Int32.ofNat_shortForm {n : Int32} (h : (-1 ≤ n && n ≤ 5) = true) :
    Int32.ofNat ((n + 1).toInt.toNat % 7) - 1 = n := by
  simp only [Bool.and_eq_true, decide_eq_true_eq, Int32.le_iff_toInt_le] at h
  have hlow : -1 ≤ n.toInt := h.1
  have hhigh : n.toInt ≤ 5 := h.2
  rw [← Int32.ofInt_toInt n]
  generalize n.toInt = k at hlow hhigh
  obtain rfl | rfl | rfl | rfl | rfl | rfl | rfl :
    k = -1 ∨ k = 0 ∨ k = 1 ∨ k = 2 ∨ k = 3 ∨ k = 4 ∨ k = 5 := by omega
  all_goals decide

namespace Exec

variable {α β : Type} {s s' : Workplace}

theorem run_bind_of_ok {x : Exec α} {k : α → Exec β} {a : α} (hx : x.run s = .ok a s') :
    (x >>= k).run s = (k a).run s' := by
  simp only [EStateM.run, bind, EStateM.bind] at hx ⊢
  rw [hx]

theorem run_get_bind (k : Workplace → Exec α) : (get >>= k : Exec α).run s = (k s).run s := rfl

/-- An element inside the bounds of an array is found. -/
theorem elementOf_run {a : Addr} {type : JType} {elements : Array Value}
    {index : Int32} (hget : s.heap.get? a = some (.array type elements)) (hlow : 0 ≤ index.toInt)
    (hhigh : index.toInt < elements.size) :
    (elementOf (.ref a) index).run s = .ok ⟨a, index.toInt.toNat, type⟩ s := by
  have hin : ¬ (index < 0 || (elements.size : Int) ≤ index.toInt) = true := by
    simp only [Bool.or_eq_true, decide_eq_true_eq, Int32.lt_iff_toInt_lt]
    change ¬ (index.toInt < 0 ∨ _)
    omega
  unfold elementOf
  dsimp only
  rw [run_get_bind, hget]
  dsimp only
  rw [if_neg hin]
  rfl

theorem narrowed_objectArray (v : Value) : narrowed .objectArray v = v := by
  have helement : JType.objectArray.elementType = .anyObject := by decide
  unfold narrowed
  split
  · rw [helement]
    rfl
  · rfl

theorem perform_pushInt (classes : Classes) (n : Int32) (f : Activation) (h : Heap)
    (statics : List (String × Value)) :
    (perform classes (Snippet.pushInt n)).run ⟨f, h, statics⟩ =
      .ok .next ⟨{ f with stack := .int n :: f.stack, ip := f.ip + 1 }, h, statics⟩ := by
  unfold Snippet.pushInt
  split
  · next hrange =>
    change EStateM.Result.ok _ (⟨{ f with
      stack := .int (Int32.ofNat ((n + 1).toInt.toNat % 7) - 1) :: f.stack
      ip := f.ip + 1 }, h, statics⟩ : Workplace) = _
    rw [Int32.ofNat_shortForm hrange]
  · split
    · rfl
    · split <;> rfl

end Exec

namespace Passes

variable {w : World} {h : Heap} {v : Value} {vs : List Value} {t : JType} (f : Activation)

theorem pushInt (hw : w.Patient) (n : Int32) :
    Passes w [Snippet.pushInt n] h (f.on vs) h (f.on (.int n :: vs)) := by
  refine of_perform hw ?_ (fun ip fresh statics => Exec.perform_pushInt ..) rfl rfl
  unfold Snippet.pushInt
  split
  · rfl
  · split
    · rfl
    · split <;> rfl

theorem load (hw : w.Patient) {index : Int} (ht : t.isDefinite) (hload : f.load? index = some v)
    (hv : v.hasType t) :
    Passes w [Snippet.load t index] h (f.on vs) h (f.on (v.cells ++ vs)) :=
  of_perform hw rfl (fun ip fresh statics =>
    @Exec.perform_load w.classes ⟨{ f.on vs with ip := ip, freshLine := fresh }, h, statics⟩ _ _ _
      hload (Value.isOfKind_slotKind ht hv)) rfl rfl

theorem store (hw : w.Patient) {f' : Activation} {index : Int} (ht : t.isDefinite)
    (hv : v.hasType t) (hf' : f.store? index v = some f') :
    Passes w [Snippet.store t index] h (f.on (v.cells ++ vs)) h (f'.on vs) := by
  obtain ⟨hlow, hhigh, rfl⟩ := Activation.store?_eq_some hf'
  refine of_perform hw rfl (fun ip fresh statics => ?_) rfl rfl
  obtain ⟨f', hf', -, -, hrun⟩ := @Exec.perform_store
    ⟨{ f.on (v.cells ++ vs) with ip := ip, freshLine := fresh }, h, statics⟩ t.slotKind index
    w.classes v vs rfl (Value.isOfKind_slotKind ht hv) hlow hhigh
  obtain ⟨-, -, rfl⟩ := Activation.store?_eq_some hf'
  exact hrun

/-- A rearrangement of the topmost cells. -/
theorem shuffle (hw : w.Patient) (form : Shuffle) (cells : List Value) {moved : List Value}
    (happly : form.apply cells = some moved) :
    Passes w [.plain (.shuffle form)] h (f.on (cells ++ vs)) h (f.on (moved ++ vs)) := by
  refine of_perform hw rfl (fun ip fresh statics => ?_) rfl rfl
  -- the form fixes the number of cells
  rcases cells with _ | ⟨a, _ | ⟨b, _ | ⟨c, _ | ⟨d, _ | ⟨e, cells⟩⟩⟩⟩⟩ <;> cases form <;>
    cases happly <;> rfl

theorem dup (hw : w.Patient) :
    Passes w [.plain (.shuffle .dup)] h (f.on (v :: vs)) h (f.on (v :: v :: vs)) :=
  shuffle f hw .dup [v] rfl

theorem swap (hw : w.Patient) {v' : Value} :
    Passes w [.plain (.shuffle .swap)] h (f.on (v :: v' :: vs)) h (f.on (v' :: v :: vs)) :=
  shuffle f hw .swap [v, v'] rfl

theorem pop (hw : w.Patient) : Passes w [.plain .pop] h (f.on (v :: vs)) h (f.on vs) :=
  of_perform hw rfl (fun _ _ _ => rfl) rfl rfl

theorem pop2 (hw : w.Patient) {v' : Value} :
    Passes w [.plain .pop2] h (f.on (v :: v' :: vs)) h (f.on vs) :=
  of_perform hw rfl (fun _ _ _ => rfl) rfl rfl

theorem newObjectArray (hw : w.Patient) {n : Int32} (hn : 0 ≤ n) :
    Passes w [.type .newObjectArray JType.objectClass] h (f.on (.int n :: vs))
      (h.alloc (.array .objectArray (Array.replicate n.toInt.toNat .null))).1
      (f.on (.ref h.cells.size :: vs)) := by
  refine of_perform hw rfl (fun ip fresh statics => ?_) rfl rfl
  have hlt : ¬ n < 0 := Int32.not_lt.2 hn
  have htype : JType.arrayOf (.ofClassName JType.objectClass) = .objectArray := by decide
  have hzero : Value.zero JType.objectArray.elementType = .null := by decide
  have hrun : (Exec.perform w.classes (.type .newObjectArray JType.objectClass)).run
      ⟨{ f.on (.int n :: vs) with ip := ip, freshLine := fresh }, h, statics⟩ =
      ((if n < 0 then Exec.negativeSize n else Exec.alloc (.array
        (JType.arrayOf (.ofClassName JType.objectClass)) (Array.replicate n.toInt.toNat
          (Value.zero (JType.arrayOf (.ofClassName JType.objectClass)).elementType))) >>=
            Exec.push) >>= fun _ => pure .next : Exec Progress).run
        ⟨{ f.on vs with ip := ip + 1, freshLine := fresh }, h, statics⟩ := by
    rfl
  rw [hrun, if_neg hlt, htype, hzero]
  rfl

section Elements

variable {a : Addr} {elements : Array Value} {index : Int32}

theorem arrayStore (hw : w.Patient) (hv : v ≠ .wide)
    (hget : h.get? a = some (.array .objectArray elements)) (hlow : 0 ≤ index.toInt)
    (hhigh : index.toInt < elements.size) :
    Passes w [.plain (.arrayStore .ref)] h (f.on (v :: .int index :: .ref a :: vs))
      (h.storeElement a index.toInt.toNat v) (f.on vs) := by
  refine of_perform hw rfl (fun ip fresh statics => ?_) rfl rfl
  have hrun : (Exec.perform w.classes (.plain (.arrayStore .ref))).run
      ⟨{ f.on (v :: .int index :: .ref a :: vs) with ip := ip, freshLine := fresh }, h,
        statics⟩ = ((Exec.elementOf (.ref a) index >>= fun element => modify fun s =>
          { s with heap :=
            s.heap.storeElement element.addr element.index (Exec.narrowed element.type v) }) >>=
          fun _ => pure .next : Exec Progress).run
        ⟨{ f.on vs with ip := ip + 1, freshLine := fresh }, h, statics⟩ := by
    cases v <;> first | rfl | exact absurd rfl hv
  have helement := @Exec.elementOf_run
    ⟨{ f.on vs with ip := ip + 1, freshLine := fresh }, h, statics⟩
    a _ elements index hget hlow hhigh
  have hstore := @Exec.run_bind_of_ok _ _ _ _ _ (fun element => modify fun s =>
    { s with heap :=
      s.heap.storeElement element.addr element.index (Exec.narrowed element.type v) }) _ helement
  rw [Exec.narrowed_objectArray] at hstore
  rw [hrun, Exec.run_bind_of_ok (hstore.trans rfl)]
  rfl

theorem arrayLoad (hw : w.Patient) (hv : v.isWide = false)
    (hget : h.get? a = some (.array .objectArray elements)) (hlow : 0 ≤ index.toInt)
    (helement : elements[index.toInt.toNat]? = some v) :
    Passes w [.plain (.arrayLoad .ref)] h (f.on (.int index :: .ref a :: vs)) h
      (f.on (v :: vs)) := by
  refine of_perform hw rfl (fun ip fresh statics => ?_) rfl rfl
  have hhigh : index.toInt < elements.size := by
    have := (Array.getElem?_eq_some_iff.1 helement).1
    omega
  -- the operands are taken off first
  have hrun : (Exec.perform w.classes (.plain (.arrayLoad .ref))).run
      ⟨{ f.on (.int index :: .ref a :: vs) with ip := ip, freshLine := fresh }, h, statics⟩ =
      ((Exec.elementOf (.ref a) index >>= fun element => get >>= fun s =>
        Exec.require (s.heap.element? element.addr element.index) >>= Exec.pushValue) >>=
          fun _ => pure .next : Exec Progress).run
        ⟨{ f.on vs with ip := ip + 1, freshLine := fresh }, h, statics⟩ := rfl
  have hfound := @Exec.elementOf_run
    ⟨{ f.on vs with ip := ip + 1, freshLine := fresh }, h, statics⟩
    a _ elements index hget hlow hhigh
  have hvalue : h.element? a index.toInt.toNat = some v := by
    unfold Heap.element?
    rw [hget]
    exact helement
  have hload : (Exec.elementOf (.ref a) index >>= fun element => get >>= fun s =>
      Exec.require (s.heap.element? element.addr element.index) >>= Exec.pushValue).run
      ⟨{ f.on vs with ip := ip + 1, freshLine := fresh }, h, statics⟩ =
      .ok () ⟨{ f.on (v :: vs) with ip := ip + 1, freshLine := fresh }, h, statics⟩ := by
    rw [Exec.run_bind_of_ok hfound, Exec.run_get_bind]
    dsimp only
    rw [hvalue]
    cases v <;> first | rfl | cases hv
  rw [hrun, Exec.run_bind_of_ok hload]
  rfl

end Elements

theorem checkCast (hw : w.Patient) {name : String}
    (hv : v = .null ∨ w.classes.isInstance (h.classNameOf v) name) :
    Passes w [.type .checkCast name] h (f.on (v :: vs)) h (f.on (v :: vs)) := by
  refine of_perform hw rfl (fun ip fresh statics => ?_) rfl rfl
  have hcast : ¬ (v ≠ .null && !w.classes.isInstance (h.classNameOf v) name) = true := by
    rcases hv with rfl | hv
    · simp
    · simp [hv]
  have hrun : (Exec.perform w.classes (.type .checkCast name)).run
      ⟨{ f.on (v :: vs) with ip := ip, freshLine := fresh }, h, statics⟩ =
      ((if v ≠ .null && !w.classes.isInstance (h.classNameOf v) name then
          Exec.raise "java/lang/ClassCastException"
            ("class " ++ h.classNameOf v ++ " cannot be cast to class " ++ name)
        else Exec.push v) >>= fun _ => pure .next : Exec Progress).run
        ⟨{ f.on vs with ip := ip + 1, freshLine := fresh }, h, statics⟩ := rfl
  rw [hrun, if_neg hcast]
  rfl

end Passes

/-! ### Calls of built-in methods -/

/-- The cells of values on a stack, pushed in order, the last one on top. -/
def Value.stacked (vs : List Value) : List Value := vs.reverse.flatMap Value.cells

namespace Value

theorem stacked_append (vs ws : List Value) : stacked (vs ++ ws) = stacked ws ++ stacked vs := by
  simp [stacked]

@[simp] theorem stacked_singleton (v : Value) : stacked [v] = v.cells := by simp [stacked]

theorem stacked_cons (v : Value) (vs : List Value) : stacked (v :: vs) = stacked vs ++ v.cells := by
  rw [← List.singleton_append, stacked_append, stacked_singleton]

end Value

namespace Exec

variable {s : Workplace} {v : Value} {vs : List Value}

theorem popValue_run (hv : v ≠ .wide) (hs : s.frame.stack = v.cells ++ vs) :
    popValue.run s = .ok v ⟨{ s.frame with stack := vs }, s.heap, s.statics⟩ := by
  obtain ⟨⟨routine, stack, locals, count, ip, line, fresh, wants⟩, heap, statics⟩ := s
  obtain rfl : stack = v.cells ++ vs := hs
  cases v <;> first | rfl | exact absurd rfl hv

theorem popArguments_run (values : List Value) (hvalues : ∀ v ∈ values, v ≠ .wide)
    (hs : s.frame.stack = Value.stacked values ++ vs) (args : List Value) :
    (popArguments values.length args).run s =
      .ok (values ++ args) ⟨{ s.frame with stack := vs }, s.heap, s.statics⟩ := by
  -- the last argument comes off first
  induction hr : values.reverse generalizing values s args with
  | nil =>
    obtain rfl : values = [] := by simpa using hr
    obtain ⟨⟨routine, stack, locals, count, ip, line, fresh, wants⟩, heap, statics⟩ := s
    obtain rfl : stack = vs := hs
    rfl
  | cons last front ih =>
    obtain rfl : values = front.reverse ++ [last] := by
      rw [← List.reverse_reverse values, hr, List.reverse_cons]
    rw [Value.stacked_append, Value.stacked_singleton, List.append_assoc] at hs
    have hpop := popValue_run (hvalues last (by simp)) hs
    rw [List.length_append, List.length_singleton, popArguments, run_bind_of_ok hpop]
    have hfront := @ih ⟨{ s.frame with stack := Value.stacked front.reverse ++ vs }, s.heap,
      s.statics⟩ front.reverse (fun v hv => hvalues v (List.mem_append_left _ hv)) rfl
      (last :: args) (by simp)
    rw [hfront]
    simp

/-- A call without a receiver takes its arguments off. -/
theorem perform_invokeStatic (classes : Classes) {owner name descriptor : String}
    {signature : Signature} {values : List Value} (f : Activation) (h : Heap)
    (statics : List (String × Value)) (hparse : Signature.parse descriptor = .ok signature)
    (hlength : values.length = signature.args.length) (hvalues : ∀ v ∈ values, v ≠ .wide) :
    (perform classes (Snippet.invoke .static owner name descriptor)).run
        ⟨f.on (Value.stacked values ++ vs), h, statics⟩ =
      .ok (.call ⟨owner, name, descriptor, values, false, signature.result ≠ .void⟩)
        ⟨{ f.on vs with ip := f.ip + 1 }, h, statics⟩ := by
  have hargs := @popArguments_run
    ⟨{ f.on (Value.stacked values ++ vs) with ip := f.ip + 1 }, h, statics⟩ vs values hvalues rfl []
  have hrun : (perform classes (Snippet.invoke .static owner name descriptor)).run
      ⟨f.on (Value.stacked values ++ vs), h, statics⟩ =
      ((methodCall (.invoke .static) owner name descriptor) >>= fun c =>
        pure (.call c) : Exec Progress).run
        ⟨{ f.on (Value.stacked values ++ vs) with ip := f.ip + 1 }, h, statics⟩ := rfl
  -- the arguments are popped from the last to the first, and end up in order
  have hcall : (methodCall (.invoke .static) owner name descriptor).run
      ⟨{ f.on (Value.stacked values ++ vs) with ip := f.ip + 1 }, h, statics⟩ =
      .ok ⟨owner, name, descriptor, values, false, signature.result ≠ .void⟩
        ⟨{ f.on vs with ip := f.ip + 1 }, h, statics⟩ := by
    unfold methodCall
    rw [if_neg (by decide), hparse]
    dsimp only
    rw [← hlength, run_bind_of_ok hargs, List.append_nil]
    rfl
  rw [hrun, run_bind_of_ok hcall]
  rfl

/-- A call with a receiver and no arguments. -/
theorem perform_invokeVirtual (classes : Classes) {owner name descriptor : String}
    {signature : Signature} (f : Activation) (h : Heap) (statics : List (String × Value))
    (hparse : Signature.parse descriptor = .ok signature) (hargs : signature.args = [])
    (hv : v ≠ .null) :
    (perform classes (Snippet.invoke .virtual owner name descriptor)).run
        ⟨f.on (v :: vs), h, statics⟩ =
      .ok (.call ⟨owner, name, descriptor, [v], true, signature.result ≠ .void⟩)
        ⟨{ f.on vs with ip := f.ip + 1 }, h, statics⟩ := by
  have hrun : (perform classes (Snippet.invoke .virtual owner name descriptor)).run
      ⟨f.on (v :: vs), h, statics⟩ =
      ((methodCall (.invoke .virtual) owner name descriptor) >>= fun c =>
        pure (.call c) : Exec Progress).run
        ⟨{ f.on (v :: vs) with ip := f.ip + 1 }, h, statics⟩ := rfl
  -- the receiver is popped after the arguments, of which there are none
  have hcall : (methodCall (.invoke .virtual) owner name descriptor).run
      ⟨{ f.on (v :: vs) with ip := f.ip + 1 }, h, statics⟩ =
      .ok ⟨owner, name, descriptor, [v], true, signature.result ≠ .void⟩
        ⟨{ f.on vs with ip := f.ip + 1 }, h, statics⟩ := by
    unfold methodCall
    rw [if_neg (by decide), hparse]
    dsimp only
    rw [hargs, List.length_nil, popArguments]
    have hpop : pop.run ⟨{ f.on (v :: vs) with ip := f.ip + 1 }, h, statics⟩ =
        .ok v ⟨{ f.on vs with ip := f.ip + 1 }, h, statics⟩ := rfl
    rw [pure_bind, if_neg (by decide), run_bind_of_ok hpop, if_neg hv]
    rfl
  rw [hrun, run_bind_of_ok hcall]
  rfl

end Exec

namespace World

variable {w : World} {owner name descriptor : String} {m : Method}

/-- A method that a class has itself is found first. -/
theorem resolve_of_method? (howner : owner.isEmpty = false)
    (hm : w.method? (qualifiedName owner name descriptor) = some m) :
    w.resolve owner name descriptor = some m := by
  unfold resolve Classes.lineage
  rw [howner]
  simp only [Bool.false_eq_true, ↓reduceIte, Classes.climb, List.findSome?_cons, hm]

end World

namespace Passes

variable {w : World} {owner name descriptor : String} {signature : Signature} {n : Native}
  {h h' : Heap} {v : Value} {vs : List Value} (f : Activation)

/-- A built-in method without a receiver. -/
theorem invokeStatic (hw : w.Patient) {values : List Value} (howner : owner.isEmpty = false)
    (hn : w.method? (qualifiedName owner name descriptor) = some (.native n))
    (hparse : Signature.parse descriptor = .ok signature) (hresult : signature.result ≠ .void)
    (hlength : values.length = signature.args.length) (hvalues : ∀ v ∈ values, v ≠ .wide)
    (hvalue : n h values = (h', .value v)) :
    Passes w [Snippet.invoke .static owner name descriptor] h (f.on (Value.stacked values ++ vs)) h'
      (f.on (v.cells ++ vs)) := by
  refine @of_native w h h' (f.on (Value.stacked values ++ vs)) (f.on vs) _ v hw
    ⟨owner, name, descriptor, values, false, signature.result ≠ .void⟩ n rfl ?_ ?_ hvalue ?_ rfl rfl
  · intro ip fresh statics
    exact Exec.perform_invokeStatic w.classes { f with ip := ip, freshLine := fresh } h statics
      hparse hlength hvalues
  · unfold World.resolveCall
    dsimp only
    rw [World.resolve_of_method? howner hn]
  · simpa using hresult

/-- A built-in method of the class of its receiver. -/
theorem invokeVirtual (hw : w.Patient) {receiver : Value} (howner : owner.isEmpty = false)
    (hn : w.method? (qualifiedName owner name descriptor) = some (.native n))
    (hparse : Signature.parse descriptor = .ok signature) (hargs : signature.args = [])
    (hresult : signature.result ≠ .void) (hnull : receiver ≠ .null)
    (hclass : h.classNameOf receiver = owner) (hvalue : n h [receiver] = (h', .value v)) :
    Passes w [Snippet.invoke .virtual owner name descriptor] h (f.on (receiver :: vs)) h'
      (f.on (v.cells ++ vs)) := by
  refine @of_native w h h' (f.on (receiver :: vs)) (f.on vs) _ v hw
    ⟨owner, name, descriptor, [receiver], true, signature.result ≠ .void⟩ n rfl ?_ ?_ hvalue ?_ rfl
    rfl
  · intro ip fresh statics
    exact Exec.perform_invokeVirtual w.classes { f with ip := ip, freshLine := fresh } h statics
      hparse hargs hnull
  · unfold World.resolveCall
    dsimp only
    rw [if_neg hnull, hclass, World.resolve_of_method? howner hn]
  · simpa using hresult

end Passes

end Outliner
