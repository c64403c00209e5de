import Outliner.Machine.Run
import Outliner.Proofs.Grammar
import Outliner.Proofs.Trimming

/-!
# Splitting again

What is left of a routine after a split can be split again. The routine extracted by the second
split is named after the original routine too, so it has to be told apart from the first one by its
suffix or by its descriptor.

`Outline.split_again` says when the two are different methods, and what follows from it: the second
extracted routine is then none of the methods that the first split made the routine call, and the
three routines can be made available together, each reached by the calls that name it.
`Outline.split_again_same` shows the other case. With one suffix for both splits, two extracted
routines with the same arguments are one method, and the second one calls itself.

A key is a class, a dot, a name and a descriptor in one text. A name is read back from it only if it
holds no parenthesis, which is why the last part asks for suffixes without one.
-/

namespace Outliner

open Routine Outline

/-- What a call names. -/
structure MethodRef where
  owner : String
  name : String
  descriptor : String
  deriving DecidableEq, Repr

/-- What a call of the routine has to name. -/
def Routine.ref (r : Routine) : MethodRef :=
  ⟨r.owner, r.name, r.descriptor⟩

/-- What a call instruction names. -/
def Instruction.callee? : Instruction → Option MethodRef
  | method _ owner name descriptor _ => some ⟨owner, name, descriptor⟩
  | _ => none

/-- The method that gives the number in a wrapper. -/
def Boxing.unboxRef (b : Boxing) : MethodRef :=
  ⟨b.className, b.unboxName, b.unboxDescriptor⟩

/-! ### The two routines of a split -/

namespace Outline

/-- A split is made at some cut. -/
theorem exists_apply_of_split {o : Outline} {r : Routine} {p : Parted}
    (h : (o.split r).2 = .ok p) : ∃ c, o.apply r c = .ok p := by
  unfold split splitWithin at h
  dsimp only at h
  split at h
  · cases h
  next notes c hfind =>
  refine ⟨c, ?_⟩
  unfold splitAt at h
  cases happly : o.apply r c with
  | error stop => rw [happly] at h; cases h
  | ok parted =>
    rw [happly] at h
    exact h

theorem ref_extracted {o : Outline} {r x : Routine} {c : Cut} (h : o.extract r c = .ok x) :
    x.ref = ⟨r.owner, r.name ++ o.suffix, c.routineDescriptor⟩ := by
  obtain ⟨-, -, howner, hname, hdescriptor, -⟩ := make_ok h
  rw [Routine.ref, howner, hname, hdescriptor]

theorem ref_trimmed {r t x : Routine} {c : Cut} (h : trim r c x = .ok t) : t.ref = r.ref := by
  obtain ⟨-, -, howner, hname, hdescriptor, -⟩ := make_ok h
  rw [Routine.ref, howner, hname, hdescriptor]
  rfl

end Outline

/-! ### What a trimmed routine calls -/

theorem callee?_pushInt (v : Int32) : (Snippet.pushInt v).callee? = none := by
  unfold Snippet.pushInt
  split
  · rfl
  split
  · rfl
  split <;> rfl

/-- Unboxing calls the method of a wrapper. -/
theorem callee?_unbox {t : JType} {insn : Instruction} (hinsn : insn ∈ Snippet.unbox t)
    {m : MethodRef} (hm : insn.callee? = some m) : ∃ p : Primitive, m = p.boxing.unboxRef := by
  unfold Snippet.unbox at hinsn
  split at hinsn
  · next b hb =>
    cases t with
    | prim p =>
      obtain rfl := Option.some.inj hb
      simp only [List.mem_cons, List.not_mem_nil, or_false] at hinsn
      rcases hinsn with rfl | rfl
      · cases hm
      · exact ⟨p, (Option.some.inj hm).symm⟩
    | _ => cases hb
  · split at hinsn
    · cases hinsn
    · rw [List.mem_singleton.1 hinsn] at hm
      cases hm

theorem callee?_fetch {index : Nat} {t : JType} {insn : Instruction} (hinsn : insn ∈ fetch index t)
    {m : MethodRef} (hm : insn.callee? = some m) : ∃ p : Primitive, m = p.boxing.unboxRef := by
  rcases List.mem_append.1 hinsn with hinsn | hinsn
  · simp only [List.mem_cons, List.not_mem_nil, or_false] at hinsn
    rcases hinsn with rfl | rfl
    · rw [callee?_pushInt] at hm
      cases hm
    · cases hm
  · exact callee?_unbox hinsn hm

theorem callee?_unpackWritten {keep : Bool} {index : Nat} {locals : List (Int × JType)}
    {insn : Instruction} (hinsn : insn ∈ unpackWritten keep index locals) {m : MethodRef}
    (hm : insn.callee? = some m) : ∃ p : Primitive, m = p.boxing.unboxRef := by
  induction locals generalizing index with
  | nil => cases hinsn
  | cons e rest ih =>
    obtain ⟨slot, t⟩ := e
    simp only [unpackWritten, List.mem_append, List.mem_singleton] at hinsn
    rcases hinsn with ((hinsn | hinsn) | rfl) | hinsn
    · split at hinsn
      · rw [List.mem_singleton.1 hinsn] at hm
        cases hm
      · cases hinsn
    · exact callee?_fetch hinsn hm
    · cases hm
    · exact ih hinsn

theorem callee?_raiseArray {t : JType} {insn : Instruction} (hinsn : insn ∈ raiseArray t) :
    insn.callee? = none := by
  unfold raiseArray at hinsn
  split at hinsn
  · simp only [List.mem_cons, List.not_mem_nil, or_false] at hinsn
    rcases hinsn with rfl | rfl <;> rfl
  · rw [List.mem_singleton.1 hinsn]
    rfl

theorem callee?_unpackProduced {index : Nat} {types : List JType} {insn : Instruction}
    (hinsn : insn ∈ unpackProduced index types) {m : MethodRef} (hm : insn.callee? = some m) :
    ∃ p : Primitive, m = p.boxing.unboxRef := by
  fun_induction unpackProduced index types with
  | case1 => cases hinsn
  | case2 index t => exact callee?_fetch hinsn hm
  | case3 index t rest _ ih =>
    simp only [List.cons_append, List.mem_cons, List.mem_append] at hinsn
    rcases hinsn with rfl | (hinsn | hinsn) | hinsn
    · cases hm
    · exact callee?_fetch hinsn hm
    · rw [callee?_raiseArray hinsn] at hm
      cases hm
    · exact ih hinsn

theorem mem_code_of_mem_staying {r : Routine} {start stop : Nat} {insn : Instruction}
    (h : insn ∈ staying (r.code.extract start stop).toList) : insn ∈ r.code := by
  have hmem := List.mem_of_mem_filter h
  rw [Array.toList_extract] at hmem
  exact Array.mem_toList_iff.1 (List.mem_of_mem_drop (List.mem_of_mem_take hmem))

/-- **A trimmed routine calls what the routine called, the extracted routine, and the methods that
unbox.** -/
theorem callee?_trimmed {r t x : Routine} {c : Cut} (h : trim r c x = .ok t) {insn : Instruction}
    (hinsn : insn ∈ t.code) {m : MethodRef} (hm : insn.callee? = some m) :
    insn ∈ r.code ∨ m = x.ref ∨ ∃ p : Primitive, m = p.boxing.unboxRef := by
  obtain ⟨-, hcode, -⟩ := make_ok h
  have hlist := List.map_inj_right (fun _ _ h => Option.some.inj h) |>.1 hcode
  rw [← Array.mem_toList_iff, ← hlist] at hinsn
  simp only [List.mem_append] at hinsn
  -- the code of the trimmed routine: what stays, labels, the call, the unpacking, what stays
  rcases hinsn with (((hinsn | hinsn) | hinsn) | hinsn) | hinsn
  · exact .inl (mem_code_of_mem_staying hinsn)
  · obtain ⟨l, -, rfl⟩ := List.mem_map.1 hinsn
    cases hm
  · rcases List.mem_append.1 hinsn with hinsn | hinsn
    · obtain ⟨e, -, rfl⟩ := List.mem_map.1 hinsn
      cases hm
    · rw [List.mem_singleton.1 hinsn] at hm
      exact .inr (.inl (Option.some.inj hm).symm)
  · refine .inr (.inr ?_)
    rcases List.mem_append.1 hinsn with hinsn | hinsn
    · rcases List.mem_append.1 hinsn with hinsn | hinsn
      · exact callee?_unpackWritten hinsn hm
      · exact callee?_unpackProduced hinsn hm
    · split at hinsn
      · rw [List.mem_singleton.1 hinsn] at hm
        cases hm
      · cases hinsn
  · exact .inl (mem_code_of_mem_staying hinsn)

/-! ### Names and descriptors -/

/-- The descriptor of an extracted routine starts with a parenthesis and ends with the semicolon of
an array of objects. -/
theorem Cut.exists_routineDescriptor (c : Cut) :
    ∃ middle, c.routineDescriptor.toList = '(' :: middle ++ [';'] := by
  have hdescriptor := Signature.toList_descriptor_ofSignature c.arguments JType.objectArray
  refine ⟨(c.arguments.map (·.descriptor.toList)).flatten ++ ')' :: "[Ljava/lang/Object".toList, ?_⟩
  rw [Cut.routineDescriptor, hdescriptor]
  simp [JType.objectArray, JType.arrayOf, JType.anyObject, JType.objectClass, JType.descriptor,
    JType.text]

/-- A method that unboxes gives a number and not an array. -/
theorem Cut.routineDescriptor_ne_unbox (c : Cut) (p : Primitive) :
    c.routineDescriptor ≠ p.boxing.unboxDescriptor := by
  intro h
  obtain ⟨middle, hmiddle⟩ := c.exists_routineDescriptor
  have hlast : p.boxing.unboxDescriptor.toList.getLast? = some ';' := by
    rw [← h, hmiddle, List.getLast?_concat]
  cases p <;> simp [Primitive.boxing, Primitive.letter] at hlast

/-- The descriptor of a checked routine starts with a parenthesis. -/
theorem Routine.Checked.exists_descriptor {r : Routine} (h : r.Checked) :
    ∃ rest, r.descriptor.toList = '(' :: rest := by
  have htext := (Signature.methodText_of_parse h.signature).text_eq
  exact ⟨_, htext⟩

/-- A name is read back from a text in which a descriptor follows it. -/
theorem eq_of_append_descriptor {name name' rest rest' : List Char} (h : '(' ∉ name)
    (h' : '(' ∉ name') (heq : name ++ '(' :: rest = name' ++ '(' :: rest') :
    name = name' ∧ rest = rest' := by
  have hname := congrArg (List.takeWhile fun c => decide (c ≠ '(')) heq
  rw [Descriptor.takeWhile_ne_append h, Descriptor.takeWhile_ne_append h'] at hname
  subst hname
  exact ⟨rfl, (List.cons.inj (List.append_cancel_left heq)).2⟩

/-- Routines named after one routine, with suffixes that hold no parenthesis, have the same key only
if the suffixes and the descriptors are the same. -/
theorem Routine.eq_of_key_eq {x y : Routine} {owner name suffix suffix' : String} (hx : x.Checked)
    (hy : y.Checked) (hxref : x.ref = ⟨owner, name ++ suffix, x.descriptor⟩)
    (hyref : y.ref = ⟨owner, name ++ suffix', y.descriptor⟩) (hfree : '(' ∉ suffix.toList)
    (hfree' : '(' ∉ suffix'.toList) (hkey : x.key = y.key) :
    suffix = suffix' ∧ x.descriptor = y.descriptor := by
  obtain ⟨hxowner, hxname, -⟩ := MethodRef.mk.inj hxref
  obtain ⟨hyowner, hyname, -⟩ := MethodRef.mk.inj hyref
  obtain ⟨rest, hrest⟩ := hx.exists_descriptor
  obtain ⟨rest', hrest'⟩ := hy.exists_descriptor
  unfold Routine.key qualifiedName at hkey
  rw [hxowner, hxname, hyowner, hyname, ← String.toList_inj] at hkey
  simp only [String.toList_append, List.append_assoc, List.append_cancel_left_eq] at hkey
  rw [hrest, hrest'] at hkey
  obtain ⟨hsuffix, rfl⟩ := eq_of_append_descriptor hfree hfree' hkey
  exact ⟨String.toList_inj.1 hsuffix, String.toList_inj.1 (hrest.trans hrest'.symm)⟩

/-! ### Routines that are available together -/

namespace Machine

/-- Makes routines available, one after the other. -/
def defineAll (m : Machine) (rs : List Routine) : Machine :=
  rs.foldl define m

theorem routines_defineAll (m : Machine) (rs : List Routine) :
    (m.defineAll rs).world.routines =
      (rs.map fun r => (r.key, r)).reverse ++ m.world.routines := by
  induction rs generalizing m with
  | nil => rfl
  | cons r rs ih =>
    change ((m.define r).defineAll rs).world.routines = _
    rw [ih]
    simp [define]

/-- Routines with different keys are all found. -/
theorem lookup_defineAll (m : Machine) {rs : List Routine} (hkeys : (rs.map Routine.key).Nodup)
    {r : Routine} (hr : r ∈ rs) : (m.defineAll rs).world.routines.lookup r.key = some r := by
  rw [routines_defineAll]
  -- the entries stand in reverse, and the one for `r` is the only one with its key
  obtain ⟨before, after, rfl⟩ := List.append_of_mem hr
  rw [List.map_append, List.map_cons] at hkeys
  have hafter : r.key ∉ after.map Routine.key :=
    (List.nodup_cons.1 (List.nodup_append.1 hkeys).2.1).1
  have hskip : ((after.map fun r => (r.key, r)).reverse).lookup r.key = none := by
    rw [List.lookup_eq_none_iff]
    intro e he
    obtain ⟨r', hr', rfl⟩ := List.mem_map.1 (List.mem_reverse.1 he)
    exact bne_iff_ne.2 fun heq => hafter (heq ▸ List.mem_map_of_mem hr')
  simp [List.lookup_append, hskip]

/-- A call that is not dispatched reaches the routine it names. -/
theorem resolveCall_of_lookup {w : World} {r : Routine}
    (h : w.routines.lookup r.key = some r) (howner : r.owner ≠ "") (heap : Heap) {c : Call}
    (hc : (⟨c.owner, c.name, c.descriptor⟩ : MethodRef) = r.ref) (hstatic : c.dispatched = false) :
    w.resolveCall heap c = some (.routine r) := by
  obtain ⟨hcowner, hcname, hcdescriptor⟩ := MethodRef.mk.inj hc
  have hmethod : w.method? (qualifiedName c.owner c.name c.descriptor) = some (.routine r) := by
    rw [hcowner, hcname, hcdescriptor]
    unfold World.method?
    rw [show qualifiedName r.owner r.name r.descriptor = r.key from rfl, h]
  have hnonempty : c.owner.isEmpty = false := by
    rw [hcowner]
    simpa using howner
  have hresolve : w.resolve c.owner c.name c.descriptor = some (.routine r) := by
    unfold World.resolve Classes.lineage
    rw [hnonempty]
    simp only [Bool.false_eq_true, if_false, Classes.climb, List.findSome?_cons, hmethod]
  unfold World.resolveCall
  rw [hstatic]
  simp only [hresolve]

end Machine

/-! ### Splitting twice -/

/-- **Splitting can be repeated.** Two routines extracted one after the other are the same method
exactly if they were given the same suffix and take the same arguments. If they are not, no call
that the first split put into the routine names the second one; and if the suffixes are names, the
three routines can be made available in any order, and a call that names one of them reaches it. -/
theorem Outline.split_again {o₁ o₂ : Outline} {r : Routine} {p₁ p₂ : Parted}
    (h₁ : (o₁.split r).2 = .ok p₁) (h₂ : (o₂.split p₁.trimmed).2 = .ok p₂) :
    (p₂.extracted.ref = p₁.extracted.ref ↔
      o₂.suffix = o₁.suffix ∧ p₂.extracted.descriptor = p₁.extracted.descriptor) ∧
    (p₂.extracted.ref ≠ p₁.extracted.ref → ∀ insn ∈ p₁.trimmed.code,
      insn.callee? = some p₂.extracted.ref → insn ∈ r.code) ∧
    (p₂.extracted.ref ≠ p₁.extracted.ref →
      (∀ suffix ∈ [o₁.suffix, o₂.suffix], suffix ≠ "" ∧ '(' ∉ suffix.toList) → r.owner ≠ "" →
      ∀ (m : Machine) (rs : List Routine),
        rs.Perm [p₂.trimmed, p₂.extracted, p₁.extracted] →
        ∀ x ∈ rs, ∀ (heap : Heap) (c : Call),
          (⟨c.owner, c.name, c.descriptor⟩ : MethodRef) = x.ref → c.dispatched = false →
            (m.defineAll rs).world.resolveCall heap c = some (.routine x)) := by
  obtain ⟨c₁, happly₁⟩ := exists_apply_of_split h₁
  obtain ⟨c₂, happly₂⟩ := exists_apply_of_split h₂
  obtain ⟨-, hextract₁, htrim₁⟩ := apply_eq_ok happly₁
  obtain ⟨-, hextract₂, htrim₂⟩ := apply_eq_ok happly₂
  have hx₁ := ref_extracted hextract₁
  have hx₂ := ref_extracted hextract₂
  have ht₂ := (ref_trimmed htrim₂).trans (ref_trimmed htrim₁)
  obtain ⟨howner, hname, -⟩ := MethodRef.mk.inj (ref_trimmed htrim₁)
  rw [howner, hname] at hx₂
  have hd₁ : p₁.extracted.descriptor = c₁.routineDescriptor := (MethodRef.mk.inj hx₁).2.2
  have hd₂ : p₂.extracted.descriptor = c₂.routineDescriptor := (MethodRef.mk.inj hx₂).2.2
  have hsame : p₂.extracted.ref = p₁.extracted.ref ↔
      o₂.suffix = o₁.suffix ∧ p₂.extracted.descriptor = p₁.extracted.descriptor := by
    rw [hx₁, hx₂, hd₁, hd₂, MethodRef.mk.injEq]
    simp
  refine ⟨hsame, fun hne insn hinsn hcallee => ?_, fun hne hsuffixes hnamed m rs hperm => ?_⟩
  · rcases callee?_trimmed htrim₁ hinsn hcallee with hmem | heq | ⟨p, heq⟩
    · exact hmem
    · exact absurd heq hne
    · refine absurd ?_ (c₂.routineDescriptor_ne_unbox p)
      rw [← hd₂]
      exact (MethodRef.mk.inj heq).2.2
  · obtain ⟨⟨hs₁, hfree₁⟩, ⟨hs₂, hfree₂⟩, -⟩ := by
      simpa only [List.forall_mem_cons] using hsuffixes
    have hchecked₁ := (make_ok hextract₁).1
    have hchecked₂ := (make_ok hextract₂).1
    have hchecked := (make_ok htrim₂).1
    -- the trimmed routine counts as one with an empty suffix
    have hempty : '(' ∉ "".toList := by simp
    have ht₂' : p₂.trimmed.ref = ⟨r.owner, r.name ++ "", p₂.trimmed.descriptor⟩ := by
      obtain ⟨howner, hname, -⟩ := MethodRef.mk.inj ht₂
      rw [Routine.ref, howner, hname, String.append_empty]
    rw [← hd₁] at hx₁
    rw [← hd₂] at hx₂
    have hkeys : ([p₂.trimmed, p₂.extracted, p₁.extracted].map Routine.key).Nodup := by
      simp only [List.map_cons, List.map_nil, List.nodup_cons, List.mem_cons, List.not_mem_nil,
        or_false, not_or, not_false_eq_true, List.nodup_nil, and_true]
      refine ⟨⟨fun hkey => ?_, fun hkey => ?_⟩, fun hkey => ?_⟩
      · exact hs₂ (eq_of_key_eq hchecked hchecked₂ ht₂' hx₂ hempty hfree₂ hkey).1.symm
      · exact hs₁ (eq_of_key_eq hchecked hchecked₁ ht₂' hx₁ hempty hfree₁ hkey).1.symm
      · exact hne (hsame.2 (eq_of_key_eq hchecked₂ hchecked₁ hx₂ hx₁ hfree₂ hfree₁ hkey))
    have hkeys' : (rs.map Routine.key).Nodup := (hperm.map Routine.key).nodup_iff.2 hkeys
    intro x hx heap c hc hstatic
    refine Machine.resolveCall_of_lookup (m.lookup_defineAll hkeys' hx) ?_ heap hc hstatic
    have hxowner : x.owner = r.owner := by
      have hmem := hperm.mem_iff.1 hx
      simp only [List.mem_cons, List.not_mem_nil, or_false] at hmem
      rcases hmem with rfl | rfl | rfl
      · exact (MethodRef.mk.inj ht₂').1
      · exact (MethodRef.mk.inj hx₂).1
      · exact (MethodRef.mk.inj hx₁).1
    rwa [hxowner]

/-- Four operations that push and drop a number. -/
def pushAndDrop : RoutineParts where
  owner := "T"
  name := "f"
  descriptor := "()V"
  access := .static
  code := #[some (.int .bipush 0), some (.plain .pop), some (.int .bipush 0), some (.plain .pop),
    some (.plain .returnVoid)]
  blocks := []
  maxLocals := 0
  maxStack := 1

/-- `pushAndDrop` is split twice with two suffixes, and the three routines are available
together. -/
theorem Outline.split_again_pushAndDrop :
    ∃ r p₁ p₂, Routine.make pushAndDrop = .ok r ∧ (({} : Outline).split r).2 = .ok p₁ ∧
      (({ suffix := "$split2" } : Outline).split p₁.trimmed).2 = .ok p₂ ∧
      p₂.extracted.ref ≠ p₁.extracted.ref ∧
      (∀ insn ∈ p₁.trimmed.code, insn.callee? ≠ some p₂.extracted.ref) ∧
      ∀ (m : Machine) (rs : List Routine),
        rs.Perm [p₂.trimmed, p₂.extracted, p₁.extracted] →
        ∀ x ∈ rs, ∀ (heap : Heap) (c : Call),
          (⟨c.owner, c.name, c.descriptor⟩ : MethodRef) = x.ref → c.dispatched = false →
            (m.defineAll rs).world.resolveCall heap c = some (.routine x) := by
  have hrun : (Routine.make pushAndDrop).toOption.any fun r =>
      decide (r.owner ≠ "") && r.code.all (·.callee?.isNone) &&
        (({} : Outline).split r).2.toOption.any fun p₁ =>
          (({ suffix := "$split2" } : Outline).split p₁.trimmed).2.toOption.isSome := by
    decide +kernel
  obtain ⟨r, hr, hrun⟩ := exists_ok_of_any hrun
  rw [Bool.and_eq_true, Bool.and_eq_true, decide_eq_true_iff, Array.all_eq_true'] at hrun
  obtain ⟨⟨howner, hcalls⟩, hrun⟩ := hrun
  obtain ⟨p₁, hp₁, hrun⟩ := exists_ok_of_any hrun
  obtain ⟨p₂, hp₂⟩ : ∃ p₂, (({ suffix := "$split2" } : Outline).split p₁.trimmed).2 = .ok p₂ := by
    cases h : (({ suffix := "$split2" } : Outline).split p₁.trimmed).2 with
    | ok p₂ => exact ⟨p₂, rfl⟩
    | error stop => rw [h] at hrun; cases hrun
  obtain ⟨hsame, hnamed, hbeside⟩ := Outline.split_again hp₁ hp₂
  -- the suffixes differ, so the names do
  have hne : p₂.extracted.ref ≠ p₁.extracted.ref := fun heq =>
    absurd (hsame.1 heq).1 (by decide)
  refine ⟨r, p₁, p₂, hr, hp₁, hp₂, hne, fun insn hinsn hcallee => ?_,
    hbeside hne (by decide) howner⟩
  have := hcalls insn (hnamed hne insn hinsn hcallee)
  rw [hcallee] at this
  cases this

/-- **With one suffix the two extracted routines can be the same method.** The second one extracted
from `pushAndDrop` takes the place of the first, and the call of the first in it is then a call of
itself. -/
theorem Outline.split_again_same :
    ∃ r p₁ p₂, Routine.make pushAndDrop = .ok r ∧ (({} : Outline).split r).2 = .ok p₁ ∧
      (({} : Outline).split p₁.trimmed).2 = .ok p₂ ∧ p₂.extracted.ref = p₁.extracted.ref ∧
      (∃ insn ∈ p₁.trimmed.code, insn.callee? = some p₂.extracted.ref) ∧
      ∃ insn ∈ p₂.extracted.code, insn.callee? = some p₂.extracted.ref := by
  have hrun : (Routine.make pushAndDrop).toOption.any fun r =>
      (({} : Outline).split r).2.toOption.any fun p₁ =>
        (({} : Outline).split p₁.trimmed).2.toOption.any fun p₂ =>
          decide (p₂.extracted.ref = p₁.extracted.ref) &&
            p₁.trimmed.code.any (fun insn => insn.callee? = some p₂.extracted.ref) &&
              p₂.extracted.code.any fun insn => insn.callee? = some p₂.extracted.ref := by
    decide +kernel
  obtain ⟨r, hr, hrun⟩ := exists_ok_of_any hrun
  obtain ⟨p₁, hp₁, hrun⟩ := exists_ok_of_any hrun
  obtain ⟨p₂, hp₂, hrun⟩ := exists_ok_of_any hrun
  rw [Bool.and_eq_true, Bool.and_eq_true, decide_eq_true_iff, Array.any_eq_true',
    Array.any_eq_true'] at hrun
  obtain ⟨⟨hsame, htrimmed⟩, hextracted⟩ := hrun
  simp only [decide_eq_true_eq] at htrimmed hextracted
  exact ⟨r, p₁, p₂, hr, hp₁, hp₂, hsame, htrimmed, hextracted⟩

end Outliner
