import Outliner.Proofs.Breakdowns
import Outliner.Proofs.Settling

/-!
# What assembled code says

Whether operands fit their fields is checked when they are bound to the pool, and the fields are
written later. This module follows the operands of an instruction from one to the other and reads
the code back.

* Binding reports every slot, increment and immediate operand that does not fit (`Binding.Binds`),
  and gives every constant an index that still means it in the end (`Pool.Supplies`).
* What a constant means is a matter of the pool alone (`PoolRequest.value?`). A class constant has a
  name, and the types without one get a constant that means nothing or another type
  (`Pool.Supplies.denotes_iff`).
* The number of dimensions of an array and the size of the arguments of a call through an interface
  are not checked. They have one byte each.
* Whether a table has rows, and whether its keys are words, is not checked either.

* `Assembly.reads_back_iff` — so what is read back from assembled code is what the instruction says
  exactly if these three are all right, and other operands that do not fit make assembly fail.
-/

namespace Outliner

/-! ### Pools with room -/

/-- A pool in good order whose indexes have two bytes. -/
structure Pool.Sound (p : Pool) : Prop where
  closed : p.Closed
  next_le : p.next ≤ limit

theorem Pool.sound_empty : Sound .empty := ⟨closed_empty, by decide⟩

namespace Pooling

variable {α β : Type}

/-- Work that does not use more indexes than there are. -/
def Within (work : Pooling α) : Prop :=
  ∀ p : Pool, p.next ≤ Pool.limit → (work p).2.next ≤ Pool.limit

theorem Within.bind {x : Pooling α} {f : α → Pooling β} (hx : Within x) (hf : ∀ a, Within (f a)) :
    Within (x >>= f) := by
  intro p hp
  have hnext := hx p hp
  rw [bind_run]
  rcases hrun : x p with ⟨e | a, p'⟩ <;> rw [hrun] at hnext
  · exact hnext
  · exact hf a p' hnext

theorem within_entry (e : PoolEntry) : Within (entry e) := by
  intro p hp
  change (Pool.intern e p).2.next ≤ _
  unfold Pool.intern
  split
  · exact hp
  · split
    · exact hp
    · next hroom => exact Nat.le_of_not_lt hroom

theorem within_classNamed (name : String) : Within (classNamed name) :=
  (within_entry _).bind fun _ => within_entry _

theorem within_nameAndType (name descriptor : String) : Within (nameAndType name descriptor) :=
  (within_entry _).bind fun _ => (within_entry _).bind fun _ => within_entry _

theorem within_ask (q : PoolRequest) : Within q.ask := by
  cases q with
  | utf8 _ | integer _ | float _ | long _ | double _ => exact within_entry _
  | string _ => exact (within_entry _).bind fun _ => within_entry _
  | classNamed name => exact within_classNamed name
  | nameAndType name descriptor => exact within_nameAndType name descriptor
  | member tag owner name descriptor =>
    exact (within_classNamed owner).bind fun _ =>
      (within_nameAndType name descriptor).bind fun _ => within_entry _
  | callSite name descriptor =>
    exact (within_nameAndType name descriptor).bind fun _ => within_entry _

/-- Work that leaves a pool sound and only adds to it. -/
def Extends (work : Pooling α) : Prop :=
  ∀ p : Pool, p.Sound → (work p).2.Sound ∧ p.table <+: (work p).2.table

theorem extends_pure (a : α) : Extends (pure a) :=
  fun _ hp => ⟨hp, List.prefix_refl _⟩

theorem extends_ask (q : PoolRequest) : Extends q.ask := by
  intro p hp
  obtain ⟨hclosed, hgrows, -⟩ := q.adds_ask p hp.closed trivial
  exact ⟨⟨hclosed, within_ask q p hp.next_le⟩, hgrows⟩

theorem Extends.bind {x : Pooling α} {f : α → Pooling β} (hx : Extends x)
    (hf : ∀ a, Extends (f a)) :
    Extends (x >>= f) := by
  intro p hp
  obtain ⟨hsound, hgrows⟩ := hx p hp
  rw [bind_run]
  rcases hrun : x p with ⟨e | a, p'⟩ <;> rw [hrun] at hsound hgrows
  · exact ⟨hsound, hgrows⟩
  · obtain ⟨hsound', hgrows'⟩ := hf a p' hsound
    exact ⟨hsound', hgrows.trans hgrows'⟩

end Pooling

/-- A constant of a sound pool has an index of two bytes. -/
theorem Pool.Sound.lt_limit {p : Pool} (h : p.Sound) {i : Nat} {q : PoolRequest}
    (hq : p.constantAt? i = some q) : i < limit := by
  unfold constantAt? at hq
  cases hentry : p.entryAt? i with
  | none => rw [hentry] at hq; cases hq
  | some e => exact Nat.lt_of_lt_of_le (h.closed.lt_next (entryAt?_eq_some.1 hentry)) h.next_le

/-! ### Constants of instructions -/

/-- The value that a constant stands for where it is pushed. A class is named, and an array type by
its descriptor; nothing has the empty name. -/
def PoolRequest.value? : PoolRequest → Option Constant
  | integer n => some (.int n)
  | float bits => some (.float bits)
  | long n => some (.long n)
  | double bits => some (.double bits)
  | string s => some (.string s)
  | classNamed name => if name = "" then none else some (.class (.ofClassName name))
  | _ => none

/-- What an instruction refers to by name. -/
def Instruction.symbol? : Instruction → Option PoolRequest
  | type _ name => some (.classNamed name)
  | multiArray descriptor _ => some (.classNamed descriptor)
  | field _ owner name descriptor => some (.member .field owner name descriptor)
  | method op owner name descriptor onInterface =>
    if op = .invoke .dynamic then some (.callSite name descriptor)
    else if onInterface || op = .invoke .interface then
      some (.member .interfaceMethod owner name descriptor)
    else some (.member .method owner name descriptor)
  | _ => none

/-- **What an instruction says is what the constant at an index means**: the value that it pushes,
or what it refers to by name. -/
def Pool.Denotes (p : Pool) (index : Nat) : Instruction → Prop
  | .ldc c => (p.constantAt? index).bind PoolRequest.value? = some c
  | insn => ∀ q, insn.symbol? = some q → p.constantAt? index = some q

/-- The type that an instruction pushes, if it does, has a name that means it: it is an array type,
or a class whose name is not empty and does not look like an array type. -/
def Instruction.Nameable : Instruction → Prop
  | ldc (.class (.array _)) => True
  | ldc (.class (.object name)) => name ≠ "" ∧ name.toList.head? ≠ some '['
  | ldc (.class _) => False
  | _ => True

/-- The constant that is asked for to push a value. -/
def Constant.request? : Constant → Option PoolRequest
  | int n => some (.integer n)
  | float bits => some (.float bits)
  | long n => some (.long n)
  | double bits => some (.double bits)
  | string s => some (.string s)
  | .class t => some (.classNamed t.internalName)
  | missing => none

/-- The constant that is asked for to bind an instruction. -/
def Instruction.constant? : Instruction → Option PoolRequest
  | ldc c => c.request?
  | insn => insn.symbol?

/-- **An index is right for an instruction**: it has two bytes, and the constant of the instruction,
if there is one, stands there. -/
structure Pool.Supplies (p : Pool) (insn : Instruction) (index : Nat) : Prop where
  lt : index < limit
  constantAt? : ∀ q, insn.constant? = some q → p.constantAt? index = some q

theorem Pool.Supplies.mono {p p' : Pool} {insn : Instruction} {index : Nat}
    (h : p.Supplies insn index) (hgrows : p.table <+: p'.table) : p'.Supplies insn index :=
  ⟨h.lt, fun q hq => constantAt?_mono hgrows (h.constantAt? q hq)⟩

/-- The name of a type means the type exactly if it is an array type, or a class with a name that
does not look like one. -/
theorem JType.value?_internalName_iff (t : JType) :
    (PoolRequest.classNamed t.internalName).value? = some (.class t) ↔
      (Instruction.ldc (.class t)).Nameable := by
  cases t with
  | void | prim _ | method _ | top => exact ⟨nofun, nofun⟩
  | null => exact ⟨fun h => absurd h (by decide), nofun⟩
  | array component =>
    have hname : "[" ++ component ≠ "" := fun h => by simpa using congrArg String.toList h
    have hclass : ofClassName ("[" ++ component) = .array component := by
      simp [ofClassName]
    refine ⟨fun _ => trivial, fun _ => ?_⟩
    rw [internalName, PoolRequest.value?, if_neg hname, hclass]
  | object name | uninitialized name _ =>
    unfold internalName PoolRequest.value? Instruction.Nameable ofClassName
    dsimp only
    by_cases hname : name = ""
    · simp [hname]
    · cases hlist : name.toList with
      | nil => exact absurd (String.toList_eq_nil_iff.1 hlist) hname
      | cons c cs => by_cases hc : c = '[' <;> simp [hname, hc]

/-- **An index that is right means what the instruction says** exactly if that has a name. -/
theorem Pool.Supplies.denotes_iff {p : Pool} {insn : Instruction} {index : Nat}
    (h : p.Supplies insn index) (hcanonical : insn.isCanonical) :
    p.Denotes index insn ↔ insn.Nameable := by
  cases insn with
  | ldc c =>
    cases c with
    | missing => cases hcanonical
    | «class» t =>
      rw [Denotes, h.constantAt? _ rfl]
      exact t.value?_internalName_iff
    | _ =>
      rw [Denotes, h.constantAt? _ rfl]
      exact ⟨fun _ => trivial, fun _ => rfl⟩
  | _ => exact ⟨fun _ => trivial, fun _ => h.constantAt?⟩

namespace Instruction

/-- An operand that passes its check asks for its constant, if it has one. -/
theorem operand_ok {insn : Instruction} {work : Pooling Nat} (h : insn.operand = .ok work) :
    (insn.constant? = none ∧ work = pure 0) ∨ ∃ q, insn.constant? = some q ∧ work = q.ask := by
  cases insn with
  | int op value | slot op n | iinc n amount =>
    rw [operand] at h
    split at h
    · obtain rfl := Except.ok.inj h
      exact .inl ⟨rfl, rfl⟩
    · cases h
  | type _ _ | multiArray _ _ | field _ _ _ _ =>
    obtain rfl := Except.ok.inj h
    exact .inr ⟨_, rfl, rfl⟩
  | method op owner name descriptor onInterface =>
    -- a call is bound to a call site, to a method or to a method of an interface
    rw [operand] at h
    simp only [constant?, symbol?]
    split at h
    · next hop =>
      obtain rfl := Except.ok.inj h
      exact .inr ⟨_, if_pos hop, rfl⟩
    · next hop =>
      rw [if_neg hop]
      split at h
      · next honInterface =>
        obtain rfl := Except.ok.inj h
        exact .inr ⟨_, if_pos honInterface, rfl⟩
      · next honInterface =>
        obtain rfl := Except.ok.inj h
        exact .inr ⟨_, if_neg honInterface, rfl⟩
  | ldc c =>
    cases c with
    | missing => cases h
    | _ =>
      obtain rfl := Except.ok.inj h
      exact .inr ⟨_, rfl, rfl⟩
  | _ =>
    obtain rfl := Except.ok.inj h
    exact .inl ⟨rfl, rfl⟩

/-- Binding an operand only adds to the pool, and the index that it gives is right. -/
theorem bindOperand_spec (insn : Instruction) {p : Pool} (hp : p.Sound) :
    (insn.bindOperand p).2.Sound ∧ p.table <+: (insn.bindOperand p).2.table ∧
      ∀ index, (insn.bindOperand p).1 = .ok index → (insn.bindOperand p).2.Supplies insn index := by
  unfold bindOperand
  split
  · exact ⟨hp, List.prefix_refl _, nofun⟩
  next work hwork =>
  -- an instruction without a constant binds nothing
  rcases operand_ok hwork with ⟨hnone, rfl⟩ | ⟨q, hq, rfl⟩
  · refine ⟨hp, List.prefix_refl _, fun index hindex => ?_⟩
    obtain rfl := Except.ok.inj hindex
    exact ⟨by decide, fun q hq => by rw [hnone] at hq; cases hq⟩
  · obtain ⟨hsound, hgrows⟩ := Pooling.extends_ask q p hp
    obtain ⟨-, -, hmeans⟩ := q.adds_ask p hp.closed trivial
    split
    · next index p' hrun =>
      rw [hrun] at hsound hgrows hmeans
      refine ⟨hsound, hgrows, fun index' hindex => ?_⟩
      obtain rfl := Except.ok.inj hindex
      refine ⟨hsound.lt_limit (hmeans index rfl), fun q' hq' => ?_⟩
      rw [hq] at hq'
      obtain rfl := Option.some.inj hq'
      exact hmeans index rfl
    · next e p' hrun =>
      rw [hrun] at hsound hgrows
      exact ⟨hsound, hgrows, nofun⟩

/-- An operand that does not fit fails its check. -/
theorem operand_of_not_fits {insn : Instruction} (hcanonical : insn.isCanonical)
    (h : ¬insn.OperandsFit) : ∃ fault, insn.operand = .error fault := by
  cases insn with
  | int op value =>
    have hform : op.form = .int := form_eq hcanonical rfl
    have hfits : operandFits op value = false := by
      refine Bool.eq_false_iff.2 fun hfits => h ?_
      cases op with
      | bipush | sipush =>
        simp only [operandFits, Bool.and_eq_true, decide_eq_true_eq, Int32.le_iff_toInt_le] at hfits
        exact hfits
      | newArray =>
        -- only some of the numbers of a byte are codes of kinds
        simp only [operandFits, Bool.and_eq_true, decide_eq_true_eq, Int32.le_iff_toInt_le] at hfits
        exact ⟨Int.le_trans (by decide) hfits.1, Int.le_trans hfits.2 (by decide)⟩
      | invoke op => cases op <;> cases hform
      | _ => cases hform
    exact ⟨_, if_neg (Bool.eq_false_iff.1 hfits)⟩
  | slot op n =>
    refine ⟨_, if_neg fun hfits => h ?_⟩
    simp only [slotFits, Bool.and_eq_true, decide_eq_true_eq] at hfits
    exact hfits
  | iinc n amount =>
    refine ⟨_, if_neg fun hfits => h ?_⟩
    simp only [slotFits, Bool.and_eq_true, decide_eq_true_eq, Int32.le_iff_toInt_le] at hfits
    exact ⟨hfits.1.1.1, hfits.1.1.2, hfits.1.2, hfits.2⟩
  | _ => exact absurd trivial h

end Instruction

/-! ### Binding a routine -/

namespace Assembly

/-- **What binding instructions adds** to a binding: indexes and faults come after those there were,
without a new fault every index is right, and every operand that fails its check is reported. -/
structure Binding.Binds (b b' : Binding) (insns : List Instruction) : Prop where
  sound : b'.pool.Sound
  table : b.pool.table <+: b'.pool.table
  indexes : b.indexes.toList <+: b'.indexes.toList
  faults : b.faults.toList <+: b'.faults.toList
  supplied : b'.faults = b.faults → ∀ (k : Nat) (insn : Instruction), insns[k]? = some insn →
    ∃ index, b'.indexes[b.indexes.size + k]? = some index ∧ b'.pool.Supplies insn index
  reported : ∀ (k : Nat) (insn : Instruction) (fault : OperandFault), insns[k]? = some insn →
    insn.operand = .error fault → .instruction (b.indexes.size + k) fault ∈ b'.faults

/-- One instruction adds one index. -/
theorem Binding.binds_next {b : Binding} (hb : b.pool.Sound) (insn : Instruction) :
    b.Binds (b.next insn) [insn] ∧ (b.next insn).indexes.size = b.indexes.size + 1 := by
  obtain ⟨hsound, hgrows, hsupplies⟩ := insn.bindOperand_spec hb
  have honly {k : Nat} {insn' : Instruction} (hk : [insn][k]? = some insn') :
      k = 0 ∧ insn' = insn := by
    cases k with
    | zero => exact ⟨rfl, (Option.some.inj hk).symm⟩
    | succ k => cases hk
  unfold next
  dsimp only
  split
  · next index pool hrun =>
    rw [hrun] at hsound hgrows hsupplies
    refine ⟨⟨hsound, hgrows, by simp, List.prefix_refl _, fun _ k insn' hk => ?_,
      fun k insn' fault hk hfault => ?_⟩, Array.size_push _⟩
    · obtain ⟨rfl, rfl⟩ := honly hk
      exact ⟨index, by simp, hsupplies index rfl⟩
    · obtain ⟨rfl, rfl⟩ := honly hk
      rw [Instruction.bindOperand, hfault] at hrun
      cases (Prod.mk.inj hrun).1
  · next fault' pool hrun =>
    rw [hrun] at hsound hgrows
    refine ⟨⟨hsound, hgrows, by simp, by simp, fun hsame => ?_, fun k insn' fault hk hfault => ?_⟩,
      Array.size_push _⟩
    · -- there is one more fault than before
      have hsize := congrArg Array.size hsame
      rw [Array.size_push] at hsize
      omega
    · obtain ⟨rfl, rfl⟩ := honly hk
      rw [Instruction.bindOperand, hfault] at hrun
      obtain rfl := Except.error.inj (Prod.mk.inj hrun).1
      exact Array.mem_push_self

theorem Binding.next_of_ok {b : Binding} {insn : Instruction} {index : Nat} {p : Pool}
    (h : insn.bindOperand b.pool = (.ok index, p)) :
    b.next insn = ⟨b.indexes.push index, b.faults, p⟩ := by
  rw [next, h]

/-- **Binding instructions one after the other.** -/
theorem Binding.binds_foldl {b : Binding} (hb : b.pool.Sound) (insns : List Instruction) :
    b.Binds (insns.foldl next b) insns := by
  induction insns generalizing b with
  | nil =>
    exact ⟨hb, List.prefix_refl _, List.prefix_refl _, List.prefix_refl _,
      fun _ k insn hk => by simp at hk, fun k insn fault hk => by simp at hk⟩
  | cons insn rest ih =>
    obtain ⟨hnext, hsize⟩ := binds_next hb insn
    have hrest := ih hnext.sound
    refine ⟨hrest.sound, hnext.table.trans hrest.table, hnext.indexes.trans hrest.indexes,
      hnext.faults.trans hrest.faults, ?_, ?_⟩
    · intro hsame k insn' hk
      -- faults are never taken back, so there is none after the first instruction either
      have hfirst : (b.next insn).faults = b.faults := by
        have hback := hrest.faults
        rw [List.foldl_cons] at hsame
        rw [hsame] at hback
        exact Array.toList_inj.1 (hback.eq_of_length_le hnext.faults.length_le)
      cases k with
      | zero =>
        obtain ⟨index, hindex, hsupplies⟩ := hnext.supplied hfirst 0 insn' hk
        refine ⟨index, ?_, hsupplies.mono hrest.table⟩
        -- the indexes of the rest come behind
        obtain ⟨later, hlater⟩ := hrest.indexes
        rw [← Array.getElem?_toList] at hindex ⊢
        rw [List.foldl_cons, ← hlater,
          List.getElem?_append_left (List.getElem?_eq_some_iff.1 hindex).1]
        exact hindex
      | succ k =>
        obtain ⟨index, hindex, hsupplies⟩ := hrest.supplied (hsame.trans hfirst.symm) k insn' hk
        rw [hsize, Nat.add_assoc, Nat.add_comm 1] at hindex
        exact ⟨index, hindex, hsupplies⟩
    · intro k insn' fault hk hfault
      cases k with
      | zero =>
        have hmem := hnext.reported 0 insn' fault hk hfault
        rw [← Array.mem_toList_iff] at hmem ⊢
        exact hrest.faults.subset hmem
      | succ k =>
        have hmem := hrest.reported k insn' fault hk hfault
        rwa [hsize, Nat.add_assoc, Nat.add_comm 1] at hmem

theorem binds_bindAll {p : Pool} (hp : p.Sound) (r : Routine) :
    Binding.Binds { pool := p } (bindAll p r) r.code.toList := by
  rw [bindAll, ← Array.foldl_toList]
  exact Binding.binds_foldl hp _

/-- The rows of the exception table only add to the pool. -/
theorem extends_guard (l : Layout) (regions : List Region) : Pooling.Extends (guard l regions) := by
  induction regions with
  | nil => exact Pooling.extends_pure _
  | cons region rest ih =>
    have hrow (catchType : Nat) : Pooling.Extends (guard l rest >>= fun rows =>
        pure (Guarded.mk (l.position region.start) (l.position region.stop)
          (l.position region.handler) catchType :: rows)) :=
      ih.bind fun _ => Pooling.extends_pure _
    rw [guard]
    dsimp only
    split
    · exact ih
    · split
      · exact (Pooling.extends_pure 0).bind hrow
      · exact (Pooling.extends_ask (.classNamed region.type)).bind hrow

/-- Nothing is taken out of the pool after binding. -/
theorem pool_of_assemble {p p' : Pool} (hp : p.Sound) {r : Routine} {m : MethodCode}
    (h : assemble p r = (.ok m, p')) : p'.Sound ∧ (bindAll p r).pool.table <+: p'.table := by
  have hguard := (assembles_of_eq_ok h).guards
  have hextends := extends_guard (Bound.mk r (bindAll p r).indexes).layout r.regions _
    (binds_bindAll hp r).sound
  rwa [hguard] at hextends

/-- What binding reports makes assembly fail, unless the limits cannot be computed. -/
theorem assemble_of_fault {p : Pool} {r : Routine} (hlimits : limitsOf r ≠ .error .breakdown)
    {fault : AssemblyFault} (hfault : fault ∈ (bindAll p r).faults) :
    ∃ all p', assemble p r = (Answer.refuse (.faults r.key all), p') ∧ fault ∈ all := by
  unfold assemble
  dsimp only
  split
  · next hlimits' => exact absurd hlimits' hlimits
  · exact ⟨_, _, rfl, by simp [hfault]⟩
  · rw [if_neg]
    · exact ⟨_, _, rfl, by simpa using hfault⟩
    · intro hempty
      rw [Array.isEmpty_iff.1 hempty] at hfault
      exact Array.not_mem_empty _ hfault

end Assembly

/-! ### Reading the code -/

namespace Instruction

/-- The number of dimensions of an array, and the cells that the arguments of a call through an
interface take with the receiver, fit a byte. -/
def CountsFit : Instruction → Prop
  | method (.invoke .interface) _ _ descriptor _ =>
    ∀ s, Signature.parse descriptor = .ok s → s.argumentsSize + 1 ≤ 255
  | multiArray _ dims => 0 ≤ dims ∧ dims ≤ 255
  | _ => True

/-- Counts are kept exactly if they fit. -/
theorem narrowed_coded_iff (insn : Instruction) (index : Nat) (distance : Label → Int) :
    (insn.coded index distance).narrowed = insn.coded index distance ↔ insn.CountsFit := by
  cases insn with
  | method op owner name descriptor onInterface =>
    rw [coded]
    split
    · next hop =>
      subst hop
      rw [CountsFit]
      cases hs : Signature.parse descriptor with
      | error e => simp [Coded.narrowed]
      | ok s =>
        simp only [Coded.narrowed, Coded.interfaceCall.injEq, true_and, Except.ok.injEq, forall_eq']
        omega
    · -- only interface calls have a count to be cut down
      next hop =>
      refine ⟨fun _ => ?_, fun _ => rfl⟩
      cases op with
      | invoke kind =>
        cases kind with
        | interface => exact absurd rfl hop
        | _ => trivial
      | _ => trivial
  | multiArray descriptor dims =>
    rw [coded, Coded.narrowed, Coded.multiArray.injEq, CountsFit]
    omega
  | _ => exact ⟨fun _ => trivial, fun _ => rfl⟩

/-- Only the distances of its own labels count for an instruction. -/
theorem coded_congr {insn : Instruction} {index : Nat} {distance distance' : Label → Int}
    (h : ∀ label ∈ insn.targets, distance label = distance' label) :
    insn.coded index distance = insn.coded index distance' := by
  cases insn with
  | jump op label => rw [coded, coded, h label List.mem_cons_self]
  | tableSwitch low high fallback targets =>
    rw [coded, coded, h fallback List.mem_cons_self,
      List.map_congr_left fun label hlabel => h label (List.mem_cons_of_mem _ hlabel)]
  | lookupSwitch fallback keys targets =>
    rw [coded, coded, h fallback List.mem_cons_self]
    refine congrArg _ (List.map_congr_left fun row hrow => ?_)
    rw [h row.2 (List.mem_cons_of_mem _ (List.of_mem_zip hrow).2)]
  | _ => rfl

end Instruction

/-- How an instruction of a routine stands at a position of its code, with its constant at an
index. -/
def MethodCode.coded (m : MethodCode) (r : Routine) (start index : Nat) (insn : Instruction) :
    Coded :=
  insn.coded index fun label => (m.distance? r start label).getD 0

namespace Assembly

/-- An instruction of assembled code fits its fields, up to its counts and the range of a table, and
is read back from them. -/
theorem read_of_assemble {p p' : Pool} (hp : p.Sound) {m : MethodCode} {b : Bound}
    (hcanonical : b.routine.Canonical) (h : assemble p b.routine = (.ok m, p'))
    (hb : b.indexes = (bindAll p b.routine).indexes) {i : Nat} {insn : Instruction}
    (hinsn : b.routine.code[i]? = some insn) (hreal : insn.isPosition = false)
    (hjump : insn.form ≠ .jump) :
    insn.OperandsFit ∧ p'.Supplies insn (b.indexes.getD i 0) ∧
      m.positions[i]? = some (b.layout.position i) ∧
      (insn.RangeFits → m.read (b.layout.position i) = some ((insn.coded (b.indexes.getD i 0)
        (b.layout.distance b.routine i)).narrowed, m.nextPosition i)) ∧
      (¬insn.RangeFits → m.read (b.layout.position i) = none) := by
  obtain ⟨bytes, hholds⟩ := holds_of_assemble h hb hinsn
  have hcanonical := hcanonical insn (Array.mem_of_getElem? hinsn)
  have hbinds := binds_bindAll hp b.routine
  have hfaults := (assembles_of_eq_ok h).faults_eq
  -- an operand that does not fit would have been reported
  have hfits : insn.OperandsFit := by
    by_contra hnot
    obtain ⟨fault, hfault⟩ := insn.operand_of_not_fits hcanonical hnot
    have hmem := hbinds.reported i insn fault (by simpa using hinsn) hfault
    rw [hfaults] at hmem
    exact Array.not_mem_empty _ hmem
  obtain ⟨index, hindex, hsupplies⟩ := hbinds.supplied hfaults i insn (by simpa using hinsn)
  obtain rfl : b.indexes.getD i 0 = index := by
    rw [Array.size_empty, Nat.zero_add, ← hb] at hindex
    rw [Array.getD_eq_getD_getElem?, hindex, Option.getD_some]
  refine ⟨hfits, hsupplies.mono (pool_of_assemble hp h).2, hholds.position, fun hrange => ?_,
    hholds.read_eq_none hcanonical⟩
  exact hholds.readBy (b.read_emit hholds.emit hcanonical hreal hjump hfits hrange hsupplies.lt
    hholds.near hholds.length_le)

/-- Limits can be computed unless an array has a negative number of dimensions. -/
theorem limitsOf_ne_breakdown {r : Routine} (hmade : r.Made) (hcanonical : r.Canonical)
    (hdims : ∀ descriptor dims, .multiArray descriptor dims ∈ r.code → 0 ≤ dims) :
    limitsOf r ≠ .error .breakdown := by
  intro hlimits
  have hanalyze : Flow.analyze .flat r = .error .breakdown := by
    unfold limitsOf at hlimits
    cases hflow : Flow.analyze .flat r with
    | ok flow => rw [hflow] at hlimits; cases hlimits
    | error stop =>
      rw [hflow] at hlimits
      obtain rfl := Except.error.inj hlimits
      rfl
  obtain ⟨offset, descriptor, dims, hinsn, hneg⟩ :=
    Flow.exists_of_analyze_breakdown hmade.checked hcanonical hanalyze
  have := hdims descriptor dims (Array.mem_of_getElem? hinsn)
  omega

/-- **What is read back from assembled code.** For every canonical routine and every sound pool:

* in code that was assembled, every operation but a jump has the slot, the increment and the
  immediate operand it says. It is read by the format exactly if its table, if it has one, has rows
  whose keys are words. Then it says the rest as well exactly if its counts fit a byte, and the
  constant at its index is the one it says exactly if the type that it pushes, if it does, has a
  name;
* a slot, an increment or an immediate operand that does not fit makes assembly fail with a fault of
  its instruction, unless an array with a negative number of dimensions keeps the limits from being
  computed. -/
theorem reads_back_iff {p : Pool} (hp : p.Sound) {r : Routine} (hmade : r.Made)
    (hcanonical : r.Canonical) :
    (∀ m p', assemble p r = (.ok m, p') → p'.Sound ∧
      ∀ i insn, r.code[i]? = some insn → insn.isMarker = false → insn.form ≠ .jump →
        insn.OperandsFit ∧ ∃ start index, m.positions[i]? = some start ∧ index < Pool.limit ∧
          (p'.Denotes index insn ↔ insn.Nameable) ∧
          (¬insn.RangeFits → m.read start = none) ∧
          (insn.RangeFits →
            m.read start = some ((m.coded r start index insn).narrowed, m.nextPosition i)) ∧
          ((m.coded r start index insn).narrowed = m.coded r start index insn ↔
            insn.CountsFit)) ∧
    ∀ i insn, r.code[i]? = some insn → ¬insn.OperandsFit →
      (∀ descriptor dims, .multiArray descriptor dims ∈ r.code → 0 ≤ dims) →
      ∃ all p' fault, assemble p r = (Answer.refuse (.faults r.key all), p') ∧
        .instruction i fault ∈ all := by
  constructor
  · intro m p' h
    obtain ⟨b, rfl, hb⟩ : ∃ b : Bound, b.routine = r ∧ b.indexes = (bindAll p b.routine).indexes :=
      ⟨⟨r, (bindAll p r).indexes⟩, rfl, rfl⟩
    refine ⟨(pool_of_assemble hp h).1, fun i insn hinsn hreal hjump => ?_⟩
    obtain ⟨hfits, hsupplies, hposition, hread, hnone⟩ := read_of_assemble hp hcanonical h hb hinsn
      (Instruction.isPosition_of_isMarker hreal) hjump
    -- the distances of the layout are those between the positions of the code
    have hpositions : m.positions = b.layout.positions.pop := by
      rw [(assembles_of_eq_ok h).positions_eq, ← hb]
    have hcoded : m.coded b.routine (b.layout.position i) (b.indexes.getD i 0) insn =
        insn.coded (b.indexes.getD i 0) (b.layout.distance b.routine i) := by
      refine Instruction.coded_congr fun label hlabel => ?_
      rw [b.steps_layout.distance?_eq hmade.checked hpositions hinsn hlabel, Option.getD_some]
    rw [← hcoded] at hread
    exact ⟨hfits, _, _, hposition, hsupplies.lt,
      hsupplies.denotes_iff (hcanonical insn (Array.mem_of_getElem? hinsn)), hnone, hread,
      insn.narrowed_coded_iff _ _⟩
  · intro i insn hinsn hnot hdims
    obtain ⟨fault, hfault⟩ :=
      insn.operand_of_not_fits (hcanonical insn (Array.mem_of_getElem? hinsn)) hnot
    have hmem := (binds_bindAll hp r).reported i insn fault (by simpa using hinsn) hfault
    obtain ⟨all, p', hassemble, hall⟩ :=
      assemble_of_fault (limitsOf_ne_breakdown hmade hcanonical hdims) hmem
    rw [Array.size_empty, Nat.zero_add] at hall
    exact ⟨all, p', fault, hassemble, hall⟩

end Assembly

/-- Operands that need wide fields, an operand that may not fit, and a table from 5 on. -/
def wideOperands (value high : Int32) (targets : List Label) : RoutineParts where
  owner := "T"
  name := "f"
  descriptor := "()V"
  access := .static
  code := #[some (.int .sipush value), some (.slot (.store .int) 300), some (.iinc 300 (-200)),
    some (.slot (.load .int) 300), some (.tableSwitch 5 high ⟨0, "out"⟩ targets),
    some (.label ⟨0, "out"⟩), some (.plain .returnVoid)]
  blocks := []
  maxLocals := 0
  maxStack := 0

namespace Assembly

/-- Operands that fit are read back, an immediate that does not fit is refused, and a table without
rows is written and cannot be read. -/
theorem reads_back_iff_wideOperands :
    (∃ r m p', Routine.make (wideOperands (-300) 6 [⟨0, "out"⟩, ⟨0, "out"⟩]) = .ok r ∧
      r.Canonical ∧ assemble .empty r = (.ok m, p') ∧ p'.Sound ∧
      m.positions = #[0, 3, 7, 13, 17, 40, 40] ∧
      m.read 0 = some (.int .sipush (-300), 3) ∧ m.read 3 = some (.slot (.store .int) 300, 7) ∧
      m.read 7 = some (.iinc 300 (-200), 13) ∧
      m.read 17 = some (.tableSwitch 23 5 6 [23, 23], 40)) ∧
    (∃ r all p' fault, Routine.make (wideOperands 40000 4 []) = .ok r ∧ r.Canonical ∧
      assemble .empty r = (Answer.refuse (.faults r.key all), p') ∧
      .instruction 0 fault ∈ all) ∧
    ∃ r m p', Routine.make (wideOperands (-300) 4 []) = .ok r ∧ r.Canonical ∧
      assemble .empty r = (.ok m, p') ∧ m.positions[4]? = some 17 ∧ m.read 17 = none := by
  refine ⟨?_, ?_, ?_⟩
  · obtain ⟨r, m, p', hr, hcanonical, hassemble, hrun⟩ := exists_assemble_of_any
      (wideOperands (-300) 6 [⟨0, "out"⟩, ⟨0, "out"⟩]) (fun _ m =>
        decide (m.positions = #[0, 3, 7, 13, 17, 40, 40]) &&
          (decide (m.read 0 = some (.int .sipush (-300), 3)) &&
          (decide (m.read 3 = some (.slot (.store .int) 300, 7)) &&
          (decide (m.read 7 = some (.iinc 300 (-200), 13)) &&
          decide (m.read 17 = some (.tableSwitch 23 5 6 [23, 23], 40)))))) (by decide +kernel)
    simp only [Bool.and_eq_true, decide_eq_true_eq] at hrun
    have hsound := ((reads_back_iff Pool.sound_empty ⟨_, hr⟩ hcanonical).1 m _ hassemble).1
    exact ⟨r, m, p', hr, hcanonical, hassemble, hsound, hrun⟩
  -- the immediate does not fit, which is told by the theorem and not by running the assembler
  · have hrun : (Routine.make (wideOperands 40000 4 [])).toOption.any fun r =>
        r.code.all Instruction.isCanonical && (decide (r.code[0]? = some (.int .sipush 40000)) &&
          r.code.all fun insn => insn.form ≠ .multiArray) := by
      decide +kernel
    obtain ⟨r, hr, hrun⟩ := exists_ok_of_any hrun
    simp only [Bool.and_eq_true, Array.all_eq_true', decide_eq_true_iff] at hrun
    obtain ⟨hcanonical, hfirst, harray⟩ := hrun
    obtain ⟨all, p', fault, hassemble, hall⟩ :=
      (reads_back_iff Pool.sound_empty ⟨_, hr⟩ hcanonical).2 0 (.int .sipush 40000) hfirst
        (fun h => absurd h.2 (by decide)) (fun _ _ hmem => absurd rfl (harray _ hmem))
    exact ⟨r, all, p', fault, hr, hcanonical, hassemble, hall⟩
  -- and so is that the table cannot be read
  · obtain ⟨r, m, p', hr, hcanonical, hassemble, hrun⟩ := exists_assemble_of_any
      (wideOperands (-300) 4 []) (fun r m => decide (m.positions[4]? = some 17 ∧
        r.code[4]? = some (Instruction.tableSwitch 5 4 ⟨0, "out"⟩ []))) (by decide +kernel)
    obtain ⟨hposition, hinsn⟩ := of_decide_eq_true hrun
    obtain ⟨-, start, -, hstart, -, -, hnone, -⟩ :=
      ((reads_back_iff Pool.sound_empty ⟨_, hr⟩ hcanonical).1 m _ hassemble).2 4 _ hinsn rfl
        (by decide)
    obtain rfl : 17 = start := Option.some.inj (hposition.symm.trans hstart)
    exact ⟨r, m, p', hr, hcanonical, hassemble, hposition, hnone fun h => h.1 rfl⟩

end Assembly

/-- What it takes to assemble a routine without protected blocks. -/
theorem Assembly.exists_assemble {p : Pool} {b : Bound} {limits : Limits} {code : Array UInt8}
    (hlimits : limitsOf b.routine = .ok limits) (hfaults : (bindAll p b.routine).faults = #[])
    (hb : b.indexes = (bindAll p b.routine).indexes) (hsize : b.layout.size b.routine ≤ maxCodeSize)
    (hemit : emitFrom b b.layout 0 b.routine.code.toList #[] #[] = .ok (code, #[]))
    (hregions : b.routine.regions = []) : ∃ m p', assemble p b.routine = (.ok m, p') := by
  have hall : emitAll ⟨b.routine, (bindAll p b.routine).indexes⟩ = .ok (b.layout, code) := by
    rw [← hb, emitAll, if_neg (Nat.not_lt.2 hsize), hemit]
    rfl
  unfold assemble
  dsimp only
  rw [hlimits, hall, hfaults, hregions]
  exact ⟨_, _, rfl⟩

/-- An array of more dimensions than a byte can say. -/
def manyDims : RoutineParts where
  owner := "T"
  name := "f"
  descriptor := "()V"
  access := .static
  code := #[some (.plain .returnVoid), some (.multiArray "[I" 300), some (.plain .returnVoid)]
  blocks := []
  maxLocals := 0
  maxStack := 0

namespace Assembly

/-- **Assembly cuts a number of dimensions down to a byte**: 300 of them become 44. -/
theorem reads_back_manyDims : ∃ r m p' index, Routine.make manyDims = .ok r ∧ r.Canonical ∧
    r.code[1]? = some (.multiArray "[I" 300) ∧ assemble .empty r = (.ok m, p') ∧
    m.positions[1]? = some 1 ∧ m.read 1 = some (.multiArray index 44, 5) := by
  have hrun : (Routine.make manyDims).toOption.any fun r =>
      r.code.all Instruction.isCanonical && (decide (r.code = #[.plain .returnVoid,
        .multiArray "[I" 300, .plain .returnVoid]) && (decide (r.regions = []) &&
        (limitsOf r).toOption.any fun _ => true)) := by
    decide +kernel
  obtain ⟨r, hr, hrun⟩ := exists_ok_of_any hrun
  simp only [Bool.and_eq_true, Array.all_eq_true', decide_eq_true_iff] at hrun
  obtain ⟨hcanonical, hcode, hregions, hlimits⟩ := hrun
  obtain ⟨limits, hlimits, -⟩ := exists_ok_of_any hlimits
  have hret (p : Pool) : (Instruction.plain .returnVoid).bindOperand p = (.ok 0, p) := rfl
  -- whatever index the class gets, nothing else depends on it
  obtain ⟨index, p', hmulti⟩ : ∃ index p',
      (Instruction.multiArray "[I" 300).bindOperand .empty = (.ok index, p') := by
    obtain ⟨index, hindex⟩ := PoolRequest.ask_of_room (p := .empty) (by decide) (.classNamed "[I")
    refine ⟨index, ((PoolRequest.classNamed "[I").ask .empty).2, ?_⟩
    rcases hrun : (PoolRequest.classNamed "[I").ask .empty with ⟨e | j, p'⟩ <;> rw [hrun] at hindex
    · cases hindex
    · obtain rfl := Except.ok.inj hindex
      have hask : Pooling.classNamed "[I" .empty = (.ok j, p') := hrun
      rw [Instruction.bindOperand, Instruction.operand]
      dsimp only
      rw [hask]
  have hbind : bindAll .empty r = ⟨#[0, index, 0], #[], p'⟩ := by
    rw [bindAll, ← Array.foldl_toList, hcode]
    change List.foldl Binding.next _ [_, _, _] = _
    rw [List.foldl_cons, List.foldl_cons, List.foldl_cons, Binding.next_of_ok (hret _),
      Binding.next_of_ok hmulti, Binding.next_of_ok (hret _)]
    rfl
  generalize hb : Bound.mk r #[0, index, 0] = b
  obtain rfl : b.routine = r := by rw [← hb]
  have hindexes : b.indexes = (bindAll .empty b.routine).indexes := by rw [hbind, ← hb]
  have hsteps := b.steps_layout
  have hinsn : b.routine.code[1]? = some (.multiArray "[I" 300) := by rw [hcode]; rfl
  have hone : b.layout.position 1 = 1 := by
    rw [hsteps.succ 0 (.plain .returnVoid) (by rw [hcode]; rfl), hsteps.zero]
    rfl
  have htwo : b.layout.position 2 = 5 := by
    rw [hsteps.succ 1 _ hinsn, hone]
    rfl
  have hthree : b.layout.position 3 = 6 := by
    rw [hsteps.succ 2 (.plain .returnVoid) (by rw [hcode]; rfl), htwo]
    rfl
  have hsize : b.layout.size b.routine ≤ maxCodeSize := by
    rw [Layout.size, Routine.size, hcode]
    exact Nat.le_trans (Nat.le_of_eq hthree) (by decide)
  obtain ⟨m, p'', hm⟩ := exists_assemble hlimits (by rw [hbind]) hindexes hsize
    (by rw [hcode]; rfl) hregions
  obtain ⟨-, -, hposition, hread, -⟩ :=
    read_of_assemble Pool.sound_empty hcanonical hm hindexes hinsn rfl (by decide)
  have hnext : m.nextPosition 1 = 5 := by
    obtain ⟨bytes, hholds⟩ := holds_of_assemble hm hindexes hinsn
    rw [hholds.next, b.length_emit hholds.emit, hone]
    rfl
  rw [hone] at hposition hread
  rw [hnext] at hread
  exact ⟨b.routine, m, p'', _, hr, hcanonical, hinsn, hm, hposition, hread trivial⟩

end Assembly

end Outliner
