import Outliner.Proofs.Abreast
import Outliner.Proofs.Soundness

/-!
# What the tracker does to a frame

The tracker executes an instruction in many ways, but what it does to a frame is of few kinds. An
instruction that names no slot takes cells off the stack and puts others in their place
(`Tracker.Reworks`). The types it puts there are types of initialized values, with two exceptions:
it may move what it has taken off, and it may create an object. Running a constructor also changes
the type of the object everywhere, and the object is one of the things taken off. Loads, stores and
increments touch the slot they name and no other (`Tracker.Does`).

How many cells an instruction takes off is known without executing it (`Instruction.drawn`), if it
finds its operands: where all its operands are there, none of them is cut in two.
-/

namespace Outliner

/-! ### Types that are read off a text -/

namespace JType

theorem isUninitialized_ofResult (type : Option FieldType) :
    (ofResult type).isUninitialized = false := by
  cases type with
  | none => rfl
  | some field => cases field <;> rfl

theorem isUninitialized_computational {t : JType} (h : t.isUninitialized = false) :
    t.computational.isUninitialized = false := by
  cases t with
  | prim p => cases p <;> rfl
  | _ => exact h

theorem isUninitialized_parse {text : String} {t : JType} (h : parse text = .ok t) :
    t.isUninitialized = false := by
  unfold parse at h
  cases hread : parseField text with
  | error e => rw [hread] at h; cases h
  | ok type =>
    rw [hread] at h
    obtain rfl := Except.ok.inj h
    exact isUninitialized_ofResult type

theorem isUninitialized_elementType (t : JType) : t.elementType.isUninitialized = false := by
  unfold elementType
  split
  · split
    · exact isUninitialized_ofResult _
    · rfl
  · rfl

theorem isReference_ofClassName (name : String) : (ofClassName name).isReference := by
  unfold ofClassName
  split <;> rfl

theorem isUninitialized_ofClassName (name : String) :
    (ofClassName name).isUninitialized = false := by
  unfold ofClassName
  split <;> rfl

end JType

theorem Signature.isUninitialized_result {text : String} {s : Signature}
    (h : Signature.parse text = .ok s) : s.result.isUninitialized = false := by
  obtain ⟨m, -, rfl⟩ := Signature.parse_eq_ok.1 h
  exact JType.isUninitialized_ofResult m.result

/-! ### Operands -/

/-- What is left of a stack when the first operands have been taken off. -/
theorem Begins.drop {ks ks' : List SlotKind} {ts : List JType} (h : Begins (ks ++ ks') ts) :
    Begins ks' (ts.drop (SlotKind.total ks)) := by
  induction ks generalizing ts with
  | nil => exact h
  | cons k ks ih =>
    obtain ⟨t, rest, hk, rfl, hrest⟩ := h
    have hdrop := ih hrest
    have htotal : SlotKind.total (k :: ks) = (Frame.cellsOf t).length + SlotKind.total ks := by
      rw [SlotKind.length_cellsOf hk]
      rfl
    rw [htotal, List.drop_length_add_append]
    exact hdrop

theorem Shuffle.mem_of_apply {α : Type} {form : Shuffle} {cells moved : List α}
    (h : form.apply cells = some moved) {a : α} (ha : a ∈ moved) : a ∈ cells := by
  unfold apply at h
  split at h <;> cases h
  all_goals
    simp only [List.mem_cons, List.not_mem_nil, or_false] at ha ⊢
    tauto

/-- **The number of cells an instruction takes off the stack.** -/
def Instruction.drawn (insn : Instruction) : Nat :=
  match insn.opcode with
  | .pop => 1
  | .pop2 => 2
  | .shuffle form => form.taken
  | _ => SlotKind.total insn.operands

namespace Tracker

variable {owner : String} {offset : Int} {f : Frame} {k n : Nat} {t : JType} {s' : State}

/-- A frame from which `k` cells have been taken off. -/
def taken (f : Frame) (k : Nat) : State :=
  ⟨⟨f.stack.drop k, f.locals⟩, f.depth - k, [], []⟩

/-- Where a type can come from if it is that of an object not initialized yet: from one of the `k`
topmost cells or from the instruction at the offset. -/
def Known (offset : Int) (f : Frame) (k : Nat) (t : JType) : Prop :=
  t.isUninitialized → t ∈ f.stack.take k ∨ ∃ name, t = .uninitialized name offset

/-- **What an instruction that names no slot does**: it takes `k` cells off and puts others in their
place. A constructor changes the type of its object, too. -/
inductive Reworks (owner : String) (offset : Int) (f : Frame) (k : Nat) : State → Prop where
  | plain (pushed : List JType) (known : ∀ t ∈ pushed, Known offset f k t) :
    Reworks owner offset f k ⟨⟨pushed ++ f.stack.drop k, f.locals⟩, f.depth - k, [], []⟩
  | init (pushed : List JType) (name : String) (site : Int)
    (mem : .uninitialized name site ∈ f.stack.take k)
    (definite : ∀ t ∈ pushed, ¬ t.isUninitialized) :
    Reworks owner offset f k
      ⟨⟨pushed ++
          (Frame.replace ⟨f.stack.drop k, f.locals⟩ (.uninitialized name site)
            (initialized owner name site)).stack,
        (Frame.replace ⟨f.stack.drop k, f.locals⟩ (.uninitialized name site)
            (initialized owner name site)).locals⟩, f.depth - k, [], []⟩

theorem pop_ok {cells : List JType} (h : (pop n).run (taken f k) = .ok cells s')
    (hk : k ≤ f.depth) :
    k + n ≤ f.depth ∧ s' = taken f (k + n) ∧ ∀ t ∈ cells, t ∈ f.stack.take (k + n) := by
  have hdepth : (taken f k).frame.depth = f.depth - k := List.length_drop
  by_cases hn : n ≤ f.depth - k
  · rw [pop_run (hdepth ▸ hn)] at h
    cases h
    refine ⟨by omega, ?_, fun t ht => ?_⟩
    · unfold taken
      rw [List.drop_drop]
      congr 1
      change min (f.depth - k) ((f.stack.drop k).length - n) = _
      rw [List.length_drop]
      change min (f.depth - k) (f.depth - k - n) = _
      omega
    · rw [List.take_add]
      exact List.mem_append_right _ ht
  · have hpop : (taken f k).frame.popN? n = none := if_neg (by rw [hdepth]; exact hn)
    obtain ⟨s, s₁, hget, h⟩ := bind_ok.1 h
    cases hget
    rw [hpop] at h
    cases h

/-- A value of a known kind is taken off whole. -/
theorem popValue_ok {kind : SlotKind} (hv : Begins [kind] (f.stack.drop k))
    (h : popValue.run (taken f k) = .ok t s') (hk : k ≤ f.depth) :
    k + kind.size ≤ f.depth ∧ s' = taken f (k + kind.size) ∧ t ∈ f.stack.take (k + kind.size) ∧
      kind.holds t := by
  obtain ⟨u, rest, hholds, hstack, -⟩ := hv
  have hlength := SlotKind.length_cellsOf hholds
  -- the value on top is of a kind, so its cells are taken off together
  have hpop : (taken f k).frame.pop? = some (u, ⟨rest, f.locals⟩) := by
    unfold taken
    rw [hstack]
    exact Frame.pop?_cellsOf fun htop => absurd htop (SlotKind.holds_usable hholds).1
  rw [popValue_run hpop] at h
  cases h
  have hdrop : f.stack.drop (k + kind.size) = rest := by
    rw [← List.drop_drop, hstack, ← hlength, List.drop_left]
  have hsize : f.depth - k = kind.size + rest.length := by
    have := congrArg List.length hstack
    rw [List.length_drop, List.length_append, hlength] at this
    exact this
  refine ⟨by omega, ?_, ?_, hholds⟩
  · unfold taken
    rw [hdrop]
    congr 1
    change min (f.depth - k) rest.length = _
    omega
  · rw [List.take_add, hstack, ← hlength, List.take_left]
    refine List.mem_append_right _ ?_
    unfold Frame.cellsOf
    split
    · exact List.mem_cons_of_mem _ (List.mem_singleton_self _)
    · exact List.mem_singleton_self _

/-! ### Programs of the tracker -/

/-- A type that is known whatever has been taken off. -/
theorem known_of_initialized (ht : t.isUninitialized = false) : Known offset f k t :=
  fun h => absurd h (by simp [ht])

theorem known_of_mem_cellsOf {u : JType} (known : Known offset f k t) (hu : u ∈ Frame.cellsOf t) :
    Known offset f k u := by
  unfold Frame.cellsOf at hu
  split at hu
  · rcases List.mem_cons.1 hu with rfl | hu
    · exact known_of_initialized rfl
    · exact List.mem_singleton.1 hu ▸ known
  · exact List.mem_singleton.1 hu ▸ known

theorem reworks_push (known : Known offset f k t) (h : (push t).run (taken f k) = .ok () s') :
    Reworks owner offset f k s' := by
  cases h
  exact .plain (Frame.cellsOf t) fun u hu => known_of_mem_cellsOf known hu

theorem reworks_pure (h : (pure () : Track Unit).run (taken f k) = .ok () s') :
    Reworks owner offset f k s' := by
  cases h
  exact .plain [] fun u hu => absurd hu List.not_mem_nil

/-- What the program does to the frame, and that the frame has the cells it takes off. -/
def Draws (owner : String) (offset : Int) (f : Frame) (k : Nat) (s' : State) : Prop :=
  k ≤ f.depth ∧ Reworks owner offset f k s'

theorem draws_pop {g : List JType → Track Unit}
    (hg : ∀ cells s', (∀ t ∈ cells, t ∈ f.stack.take n) → (g cells).run (taken f n) = .ok () s' →
      Reworks owner offset f n s')
    (h : (pop n >>= g).run (taken f 0) = .ok () s') : Draws owner offset f n s' := by
  obtain ⟨cells, s₁, hpop, h⟩ := bind_ok.1 h
  obtain ⟨hle, rfl, hmem⟩ := pop_ok hpop (Nat.zero_le _)
  rw [Nat.zero_add] at hle hmem h
  exact ⟨hle, hg cells s' hmem h⟩

theorem draws_popOnly (h : (pop n >>= fun _ => pure ()).run (taken f 0) = .ok () s') :
    Draws owner offset f n s' :=
  draws_pop (fun _ _ _ h => reworks_pure h) h

theorem draws_popPush (ht : t.isUninitialized = false)
    (h : (popPush n t).run (taken f 0) = .ok () s') : Draws owner offset f n s' :=
  draws_pop (fun _ _ _ h => reworks_push (known_of_initialized ht) h) h

/-- A value of a given kind is taken off and something done with it. -/
theorem draws_popValue {kind : SlotKind} (hv : Begins [kind] f.stack) {g : JType → Track Unit}
    (hg : ∀ u s', u ∈ f.stack.take kind.size → (g u).run (taken f kind.size) = .ok () s' →
      Reworks owner offset f kind.size s')
    (h : (popValue >>= g).run (taken f 0) = .ok () s') : Draws owner offset f kind.size s' := by
  obtain ⟨u, s₁, hpop, h⟩ := bind_ok.1 h
  obtain ⟨hle, rfl, hmem, -⟩ := popValue_ok hv hpop (Nat.zero_le _)
  rw [Nat.zero_add] at hle hmem h
  exact ⟨hle, hg u s' hmem h⟩

theorem draws_arrayLoad (hv : Begins [.int, .ref] f.stack)
    (h : (perform owner (.plain (.arrayLoad .ref)) offset).run (taken f 0) = .ok () s') :
    Draws owner offset f 2 s' := by
  obtain ⟨cells, s₁, hpop, h⟩ := bind_ok.1 h
  obtain ⟨hle, rfl, -⟩ := pop_ok hpop (Nat.zero_le _)
  have hv' : Begins [.ref] (f.stack.drop (SlotKind.total [.int])) := Begins.drop hv
  obtain ⟨array, s₁, hpop, h⟩ := bind_ok.1 h
  obtain ⟨hle, rfl, -⟩ := popValue_ok hv' hpop hle
  refine ⟨hle, reworks_push (known_of_initialized ?_) h⟩
  cases array <;> first | rfl | exact JType.isUninitialized_elementType _

theorem draws_shuffle {form : Shuffle}
    (h : (perform owner (.plain (.shuffle form)) offset).run (taken f 0) = .ok () s') :
    Draws owner offset f form.taken s' := by
  refine draws_pop (fun cells s' hmem h => ?_) h
  cases hmoved : form.apply cells with
  | none =>
    rw [hmoved] at h
    cases h
  | some moved =>
    rw [hmoved] at h
    cases h
    have hstack : (Frame.pushAll ⟨f.stack.drop form.taken, f.locals⟩ moved.reverse) =
        ⟨moved ++ f.stack.drop form.taken, f.locals⟩ := by
      simp [Frame.pushAll]
    change Reworks owner offset f _ ⟨Frame.pushAll ⟨_, _⟩ moved.reverse, _, [], []⟩
    rw [hstack]
    exact .plain moved fun t ht _ => .inl (hmem t (Shuffle.mem_of_apply hmoved ht))

theorem draws_plain {op : Opcode} (hcanon : (Instruction.plain op).isCanonical)
    (hv : (Instruction.plain op).StackVerified f.stack)
    (h : (perform owner (.plain op) offset).run (taken f 0) = .ok () s') :
    Draws owner offset f (Instruction.plain op).drawn s' := by
  -- an opcode that is not written without operands cannot be carried here
  replace hcanon := Instruction.carries_of_isCanonical hcanon
  have pushes (t : JType) (ht : t.isUninitialized = false)
      (h : (push t).run (taken f 0) = .ok () s') : Draws owner offset f 0 s' :=
    ⟨Nat.zero_le _, reworks_push (known_of_initialized ht) h⟩
  cases op with
  | nop | returnVoid => exact ⟨Nat.zero_le _, reworks_pure h⟩
  | aconstNull => exact pushes .null rfl h
  | iconst => exact pushes .int rfl h
  | lconst => exact pushes .long rfl h
  | fconst => exact pushes .float rfl h
  | dconst => exact pushes .double rfl h
  | arrayLoad kind =>
    cases kind with
    | ref => exact draws_arrayLoad hv h
    | _ => exact draws_popPush rfl h
  | arrayStore kind => cases kind <;> exact draws_popOnly h
  | pop => exact draws_popOnly h
  | pop2 => exact draws_popOnly h
  | shuffle form => exact draws_shuffle h
  | arith op kind => cases kind <;> exact draws_popPush rfl h
  | neg kind => exact draws_popValue hv (fun u s' hu h => reworks_push (fun _ => .inl hu) h) h
  | shift op wide => cases wide <;> exact draws_popPush rfl h
  | bitwise op wide => cases wide <;> exact draws_popPush rfl h
  | convert conversion =>
    refine draws_popValue hv (fun u s' _ h => reworks_push (known_of_initialized ?_) h) h
    cases conversion <;> rfl
  | lcmp => exact draws_popPush rfl h
  | fcmp => exact draws_popPush rfl h
  | dcmp => exact draws_popPush rfl h
  | returnValue kind => exact draws_popValue hv (fun u s' _ h => reworks_pure h) h
  | arrayLength => exact draws_popPush rfl h
  | athrow | monitorEnter | monitorExit => exact draws_popOnly h
  | marker | gotoWide | jsrWide | unassigned => cases (hcanon rfl).1
  | invoke op => cases op <;> cases (hcanon rfl).2
  | _ => cases (hcanon rfl).2

theorem draws_access {op : FieldOp} {descriptor : String}
    (hparse : JType.parse descriptor = .ok t) (hvoid : t ≠ .void)
    (hv : Begins (op.operands t) f.stack)
    (h : (access op descriptor).run (taken f 0) = .ok () s') :
    Draws owner offset f (SlotKind.total (op.operands t)) s' := by
  have ht := JType.isUninitialized_computational (JType.isUninitialized_parse hparse)
  have hsize : t.slotKind.size = t.size := (parse_usable hparse).2 hvoid
  unfold access at h
  rw [hparse] at h
  cases op with
  | getStatic => exact ⟨Nat.zero_le _, reworks_push (known_of_initialized ht) h⟩
  | putStatic =>
    have hdraws : Draws owner offset f t.size s' := draws_popOnly h
    rw [← hsize] at hdraws
    exact hdraws
  | getField => exact draws_popValue hv (fun _ _ _ h => reworks_push (known_of_initialized ht) h) h
  | putField =>
    have hdraws : Draws owner offset f (t.size + 1) s' := draws_popOnly h
    rw [← hsize] at hdraws
    exact hdraws

/-- What pushing a result adds to a stack. -/
theorem pushResult_ok {s : State} (ht : t.isUninitialized = false)
    (h : (pushResult t).run s = .ok () s') :
    ∃ pushed : List JType, (∀ u ∈ pushed, u.isUninitialized = false) ∧
      s' = { s with frame := { s.frame with stack := pushed ++ s.frame.stack } } := by
  unfold pushResult at h
  split at h
  · cases h
    exact ⟨[], by simp, rfl⟩
  · cases h
    refine ⟨Frame.cellsOf t.computational, fun u hu => ?_, rfl⟩
    have hcomputational := JType.isUninitialized_computational ht
    unfold Frame.cellsOf at hu
    split at hu
    · rcases List.mem_cons.1 hu with rfl | hu
      · rfl
      · exact List.mem_singleton.1 hu ▸ hcomputational
    · exact List.mem_singleton.1 hu ▸ hcomputational

theorem draws_call {op : InvokeOp} {name descriptor : String} {signature : Signature}
    (hparse : Signature.parse descriptor = .ok signature)
    (hv : Begins (op.operands signature) f.stack)
    (h : (call owner op name descriptor).run (taken f 0) = .ok () s') :
    Draws owner offset f (SlotKind.total (op.operands signature)) s' := by
  have hresult := Signature.isUninitialized_result hparse
  have plain {k : Nat} (h : (pushResult signature.result).run (taken f k) = .ok () s') :
      Reworks owner offset f k s' := by
    obtain ⟨pushed, hpushed, rfl⟩ := pushResult_ok hresult h
    exact .plain pushed fun t ht => known_of_initialized (hpushed t ht)
  have hargs := (signature_usable hparse).2
  -- the receiver is one cell more than the arguments, and lies right below them
  have hreceiver (hop : op.operands signature =
      (signature.args.map JType.slotKind).reverse ++ [.ref]) :
      Begins [.ref] (f.stack.drop (0 + signature.argumentsSize)) ∧
        SlotKind.total (op.operands signature) = 0 + signature.argumentsSize +
        SlotKind.ref.size := by
    rw [hop] at hv ⊢
    rw [SlotKind.total_append, hargs, Nat.zero_add, ← hargs]
    exact ⟨hv.drop, rfl⟩
  unfold call at h
  rw [hparse] at h
  obtain ⟨cells, s₁, hpop, h⟩ := bind_ok.1 h
  obtain ⟨hle, rfl, -⟩ := pop_ok hpop (Nat.zero_le _)
  have hstatic (hop : op.operands signature =
      (signature.args.map JType.slotKind).reverse ++ []) :
      SlotKind.total (op.operands signature) = 0 + signature.argumentsSize := by
    rw [hop, List.append_nil, hargs, Nat.zero_add]
  cases op with
  | static =>
    rw [hstatic rfl]
    exact ⟨hle, plain h⟩
  | dynamic =>
    rw [hstatic rfl]
    exact ⟨hle, plain h⟩
  | special =>
    obtain ⟨hbegins, htotal⟩ := hreceiver rfl
    obtain ⟨receiver, s₁, hpop, h⟩ := bind_ok.1 h
    obtain ⟨hle, rfl, hmem, -⟩ := popValue_ok hbegins hpop hle
    rw [htotal]
    refine ⟨hle, ?_⟩
    cases receiver with
    | uninitialized className site =>
      by_cases hname : name = "<init>"
      · rw [hname] at h
        obtain ⟨pushed, hpushed, rfl⟩ := pushResult_ok hresult h
        exact .init pushed className site hmem fun t ht => by simp [hpushed t ht]
      · simp only [if_neg hname] at h
        exact plain h
    | _ => exact plain h
  | virtual | interface =>
    obtain ⟨hbegins, htotal⟩ := hreceiver rfl
    obtain ⟨receiver, s₁, hpop, h⟩ := bind_ok.1 h
    obtain ⟨hle, rfl, -⟩ := popValue_ok hbegins hpop hle
    rw [htotal]
    exact ⟨hle, plain h⟩

/-- **What the tracker does to a frame**, for an instruction that names no slot. -/
theorem draws_of_ok {insn : Instruction} (hslot : insn.slotAccess? = none)
    (hcanon : insn.isCanonical) (hv : insn.Verified f)
    (h : (perform owner insn offset).run (taken f 0) = .ok () s') :
    Draws owner offset f insn.drawn s' := by
  -- only a new object makes something uninitialized known
  have pushes (t : JType) (known : Known offset f 0 t) (h : (push t).run (taken f 0) = .ok () s') :
      Draws owner offset f 0 s' :=
    ⟨Nat.zero_le _, reworks_push known h⟩
  have still (h : (pure () : Track Unit).run (taken f 0) = .ok () s') : Draws owner offset f 0 s' :=
    ⟨Nat.zero_le _, reworks_pure h⟩
  have hcarries := Instruction.carries_of_isCanonical hcanon
  cases insn with
  | plain op => exact draws_plain hcanon hv.stack h
  | slot op index => cases op <;> cases hslot
  | iinc index amount => cases hslot
  | int op operand =>
    cases op with
    | bipush | sipush => exact pushes .int (known_of_initialized rfl) h
    | newArray =>
      refine draws_pop (fun cells s' _ h => ?_) h
      obtain ⟨elem, s₁, helem, h⟩ := bind_ok.1 h
      cases hcode : arrayElement? operand with
      | none => rw [hcode] at helem; cases helem
      | some p =>
        rw [hcode] at helem
        cases helem
        exact reworks_push (known_of_initialized rfl) h
    | invoke op => cases op <;> cases (hcarries rfl).2
    | _ => cases (hcarries rfl).2
  | ldc c =>
    obtain ⟨t, s₁, ht, h⟩ := bind_ok.1 h
    cases c with
    | missing => cases ht
    | _ =>
      cases ht
      exact pushes _ (known_of_initialized rfl) h
  | type op name =>
    cases op with
    | new => exact pushes (.uninitialized name offset) (fun _ => .inr ⟨name, rfl⟩) h
    | newObjectArray =>
      exact draws_pop (fun _ _ _ h => reworks_push (known_of_initialized rfl) h) h
    | checkCast =>
      exact draws_pop (fun _ _ _ h =>
        reworks_push (known_of_initialized (JType.isUninitialized_ofClassName name)) h) h
    | instanceOf => exact draws_popPush rfl h
    | invoke op => cases op <;> cases (hcarries rfl).2
    | _ => cases (hcarries rfl).2
  | field op fieldOwner name descriptor =>
    cases op with
    | field access =>
      cases hparse : JType.parse descriptor with
      | error e =>
        change (Tracker.access access descriptor).run _ = _ at h
        unfold Tracker.access at h
        rw [hparse] at h
        cases h
      | ok t =>
        have hvoid : t ≠ .void := by
          rintro rfl
          exact hv.field hparse
        have hoperands : (Instruction.field (.field access) fieldOwner name descriptor).operands =
            access.operands t := by
          simp only [Instruction.operands, hparse]
        have hbegins : Begins (access.operands t) f.stack := hoperands ▸ hv.stack
        change Draws owner offset f (SlotKind.total (Instruction.operands _)) s'
        rw [hoperands]
        exact draws_access hparse hvoid hbegins h
    | invoke op => cases op <;> cases (hcarries rfl).2
    | _ => cases (hcarries rfl).2
  | method op methodOwner name descriptor onInterface =>
    cases op with
    | invoke op =>
      cases hparse : Signature.parse descriptor with
      | error e =>
        change (call owner op name descriptor).run _ = _ at h
        unfold call at h
        rw [hparse] at h
        cases h
      | ok signature =>
        have hoperands : (Instruction.method (.invoke op) methodOwner name descriptor
            onInterface).operands = op.operands signature := by
          simp only [Instruction.operands, hparse]
        have hbegins : Begins (op.operands signature) f.stack := hoperands ▸ hv.stack
        change Draws owner offset f (SlotKind.total (Instruction.operands _)) s'
        rw [hoperands]
        exact draws_call hparse hbegins h
    | _ => cases (hcarries rfl).2
  | jump op target =>
    cases op with
    | ifZero | ifNull | ifNonNull | ifInt | ifRef => exact draws_popOnly h
    | goto => exact still h
    | jsr => exact pushes .top (known_of_initialized rfl) h
    | gotoWide | jsrWide => cases (hcarries rfl).1
    | invoke op => cases op <;> cases (hcarries rfl).2
    | _ => cases (hcarries rfl).2
  | tableSwitch low high fallback targets => exact draws_popOnly h
  | lookupSwitch fallback keys targets => exact draws_popOnly h
  | multiArray descriptor dims =>
    change (if dims < 0 then breakdown else _ : Track Unit).run _ = _ at h
    change Draws owner offset f (SlotKind.total (List.replicate dims.toNat .int)) s'
    rw [SlotKind.total_replicate]
    split at h
    · cases h
    · refine draws_pop (fun cells s' _ h => ?_) h
      cases hparse : JType.parse descriptor with
      | error e =>
        rw [hparse] at h
        cases h
      | ok t =>
        rw [hparse] at h
        exact reworks_push (known_of_initialized (JType.isUninitialized_parse hparse)) h
  | label l => exact still h
  | line n => exact still h
  | frame => exact still h

/-! ### What follows -/

namespace Reworks

variable {k : Nat}

/-- A slot keeps its type, unless it holds an object whose constructor has been run. -/
theorem slot (h : Reworks owner offset f k s') (index : Int) :
    s'.frame.slot index = f.slot index ∨ ∃ name site, f.slot index = .uninitialized name site ∧
      .uninitialized name site ∈ f.stack.take k ∧
      s'.frame.slot index = initialized owner name site := by
  cases h with
  | plain pushed known => exact .inl rfl
  | init pushed name site mem definite =>
    simp only [Frame.slot, Frame.replace, SlotMap.get?_mapWithSlot]
    cases hget : f.locals.get? index with
    | none => exact .inl rfl
    | some t =>
      by_cases ht : t = .uninitialized name site
      · exact .inr ⟨name, site, ht, mem, by simp [ht]⟩
      · exact .inl (by simp [ht])

/-- Above a depth that is not gone below, an object that is not initialized was there before, or
has just been created. -/
theorem known (h : Reworks owner offset f k s') {floor : Nat} (hfloor : floor + k ≤ f.depth)
    {t : JType} (ht : t ∈ s'.frame.stack.take (s'.frame.depth - floor)) :
    Known offset f (f.depth - floor) t := by
  intro hu
  have hle : k ≤ f.depth - floor := by omega
  -- The cells above the floor that were not taken off are above it still; what was pushed is known
  -- by the definition.
  have hlower : ∀ u, u ∈ (f.stack.drop k).take (f.depth - floor - k) →
      u ∈ f.stack.take (f.depth - floor) := by
    intro u hu
    rw [show f.depth - floor = k + (f.depth - floor - k) by omega, List.take_add]
    exact List.mem_append_right _ hu
  have hupper : ∀ u, Known offset f k u → u.isUninitialized →
      u ∈ f.stack.take (f.depth - floor) ∨ ∃ name, u = .uninitialized name offset := by
    intro u hknown hu
    exact (hknown hu).imp_left fun hmem => List.take_subset_take_left f.stack hle hmem
  have hdepth : (f.stack.drop k).length = f.depth - k := List.length_drop
  cases h with
  | plain pushed known =>
    have hlength : (pushed ++ f.stack.drop k).length - floor =
        pushed.length + (f.depth - floor - k) := by
      rw [List.length_append, hdepth]
      omega
    change t ∈ (pushed ++ f.stack.drop k).take ((pushed ++ f.stack.drop k).length - floor) at ht
    rw [hlength, List.take_length_add_append] at ht
    rcases List.mem_append.1 ht with ht | ht
    · exact hupper t (known t ht) hu
    · exact .inl (hlower t ht)
  | init pushed name site mem definite =>
    simp only [Frame.replace, Frame.depth, List.length_append, List.length_map] at ht
    have hlength : pushed.length + (f.stack.drop k).length - floor =
        pushed.length + (f.depth - floor - k) := by
      rw [hdepth]
      omega
    rw [hlength, List.take_length_add_append, ← List.map_take] at ht
    rcases List.mem_append.1 ht with ht | ht
    · exact absurd hu (definite t ht)
    · obtain ⟨u, hmem, rfl⟩ := List.mem_map.1 ht
      split at hu
      · simp [initialized, JType.isUninitialized_ofClassName] at hu
      · next hne =>
        rw [if_neg hne]
        exact .inl (hlower u hmem)

end Reworks

/-- **What the tracker does to a frame.** Slots are touched by the instructions that name them
only. -/
inductive Does (owner : String) (offset : Int) (insn : Instruction) (f : Frame) :
    Frame → Effect → Prop where
  | stack {s' : State} {e : Effect} (slot : insn.slotAccess? = none) (reads : e.reads = [])
    (writes : e.writes = []) (drawn_le : insn.drawn ≤ f.depth) (pops : e.pops = insn.drawn)
    (reworks : Reworks owner offset f insn.drawn s') : Does owner offset insn f s'.frame e
  | load {kind : SlotKind} {index : Int} {e : Effect} (insn_eq : insn = .slot (.load kind) index)
    (holds : kind.holds (f.slot index)) (pops : e.pops = 0) (reads : e.reads = [⟨index, kind.size⟩])
    (writes : e.writes = []) :
    Does owner offset insn f ⟨Frame.cellsOf (f.slot index) ++ f.stack, f.locals⟩ e
  | store {kind : SlotKind} {index : Int} {t : JType} {ts : List JType} {e : Effect}
    (insn_eq : insn = .slot (.store kind) index) (holds : kind.holds t)
    (stack : f.stack = Frame.cellsOf t ++ ts) (pops : e.pops = kind.size) (reads : e.reads = [])
    (writes : e.writes = [⟨index, kind.size⟩]) :
    Does owner offset insn f (Frame.setSlot ⟨ts, f.locals⟩ index t) e
  | increment {index : Int} {amount : Int32} {e : Effect} (insn_eq : insn = .iinc index amount)
    (holds : f.slot index = .int) (pops : e.pops = 0) (reads : e.reads = [⟨index, 1⟩])
    (writes : e.writes = [⟨index, 1⟩]) : Does owner offset insn f (f.setSlot index .int) e
  | ret {index : Int} {e : Effect} (insn_eq : insn = .slot .ret index) (pops : e.pops = 0)
    (reads : e.reads = [⟨index, 1⟩]) (writes : e.writes = []) : Does owner offset insn f f e

theorem does_of_execute {insn : Instruction} {after : Frame} {e : Effect}
    (hcanon : insn.isCanonical) (hv : insn.Verified f)
    (h : execute owner f insn offset = (after, .ok e)) : Does owner offset insn f after e := by
  cases hslot : insn.slotAccess? with
  | none =>
    obtain ⟨s', hrun, rfl, rfl⟩ := execute_ok h
    obtain ⟨hle, hreworks⟩ := draws_of_ok hslot hcanon hv hrun
    -- the number of cells taken off is what the lowest depth is counted by
    obtain ⟨hpops, hreads, hwrites⟩ :
        f.depth - s'.low = insn.drawn ∧ s'.reads = [] ∧ s'.writes = [] := by
      cases hreworks <;> exact ⟨by dsimp only; omega, rfl, rfl⟩
    exact .stack hslot hreads hwrites hle hpops hreworks
  | some access =>
    cases insn with
    | slot op index =>
      have hcarries := (Instruction.carries_of_isCanonical hcanon rfl).2
      cases op with
      | load kind =>
        -- each of these four has a single outcome, which can be computed
        obtain ⟨effect, hexec, hpops, hreads, hwrites⟩ := execute_load owner offset hv.slot
        rw [hexec] at h
        cases h
        exact .load rfl hv.slot hpops hreads hwrites
      | store kind =>
        obtain ⟨t, ts, hk, hstack, -⟩ := hv.stack
        obtain ⟨stack, locals⟩ := f
        obtain rfl : stack = _ := hstack
        obtain ⟨effect, hexec, hpops, hreads, hwrites⟩ :=
          execute_store owner offset index hk ts locals
        rw [hexec] at h
        cases h
        exact .store rfl hk rfl hpops hreads hwrites
      | ret =>
        have hexec : execute owner f (.slot .ret index) offset =
            (f, .ok ⟨f.depth - f.depth, f.depth - f.depth, [⟨index, 1⟩], []⟩) := rfl
        rw [hexec] at h
        cases h
        exact .ret rfl (Nat.sub_self _) rfl rfl
      | invoke op => cases op <;> cases hcarries
      | _ => cases hcarries
    | iinc index amount =>
      have hexec : execute owner f (.iinc index amount) offset = (f.setSlot index .int,
          .ok ⟨f.depth - f.depth, f.depth - f.depth, [⟨index, 1⟩], [⟨index, 1⟩]⟩) := rfl
      rw [hexec] at h
      cases h
      exact .increment rfl hv.slot (Nat.sub_self _) rfl rfl
    | _ => cases hslot

end Tracker

end Outliner
