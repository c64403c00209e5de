import Outliner.Draft
import Outliner.Proofs.Made

/-!
# The slots a draft reserves

A draft hands out local slots one after the other. It keeps a single count, which is raised by the
instructions that are appended, by declared numbers of slots and by the slots handed out before; the
receiver and the arguments of the routine do not raise it.

* `Draft.addLocal_free_iff` — as long as no sum passes the largest word, a slot handed out is free
  (apart from the slots that appended instructions name, from the receiver and the arguments, and
  from the slots handed out before) if and only if the count has already come to the end of the
  arguments and this very slot has not been handed out for a type without a size.
* `Draft.addLocal_takes_argument` — the first slot handed out for a routine with an argument is the
  argument's.

The count is above everything that has been named or handed out (`Draft.Covers`); this is what one
step of a draft keeps, and so a whole sequence of them.
-/

namespace Outliner

/-- A step in making a draft. Whatever appends instructions is a sequence of such steps. -/
inductive DraftStep where
  | emit (place : Option Instruction)
  | addLabel
  | tryCatch (b : TryCatch)
  | addLocal (t : JType)
  | limitLocals (n : Int)
  | limitStack (n : Int)

namespace Draft

/-- The draft after a step. -/
def take (d : Draft) : DraftStep → Draft
  | .emit place => d.emitPlace place
  | .addLabel => d.addLabel.2
  | .tryCatch b => d.tryCatch b
  | .addLocal t => (d.addLocal t).2
  | .limitLocals n => d.limitLocals n
  | .limitStack n => d.limitStack n

/-- The draft after steps. -/
def takeAll (d : Draft) (steps : List DraftStep) : Draft :=
  steps.foldl take d

end Draft

namespace DraftStep

/-- The slots that the instruction appended by a step names: the first one and their number. -/
def named : DraftStep → List (Int × Nat)
  | emit place => place.toList.filterMap Instruction.slotAccess?
  | _ => []

/-- The slot that a step hands out, with the type it is for. -/
def handedOut (d : Draft) : DraftStep → List (Int × JType)
  | addLocal t => [((d.addLocal t).1, t)]
  | _ => []

end DraftStep

namespace Draft

/-- A draft in which nothing has been done. -/
def blank (owner : String) (access : Access) (name descriptor : String) : Draft where
  owner := owner
  access := access
  name := name
  descriptor := descriptor

/-- The slots that steps hand out, with the types they are for. -/
def handedOut (d : Draft) : List DraftStep → List (Int × JType)
  | [] => []
  | step :: rest => step.handedOut d ++ (d.take step).handedOut rest

/-- No sum of a slot and a size that comes up in steps passes the largest word. -/
def Fits (d : Draft) (steps : List DraftStep) : Prop :=
  (∀ a ∈ steps.flatMap DraftStep.named, Word.min ≤ a.1 ∧ a.1 + a.2 ≤ Word.max) ∧
    ∀ a ∈ d.handedOut steps, a.1 + a.2.size ≤ Word.max

instance (d : Draft) (steps : List DraftStep) : Decidable (d.Fits steps) :=
  inferInstanceAs (Decidable (_ ∧ _))

/-! ### What the count is above -/

/-- **The count is above slots**: those that have been named and those that have been handed out. -/
structure Covers (d : Draft) (named : List (Int × Nat)) (out : List (Int × JType)) : Prop where
  nonneg : 0 ≤ d.maxLocals
  named : ∀ a ∈ named, a.1 + a.2 ≤ d.maxLocals
  out : ∀ a ∈ out, a.1 + a.2.size ≤ d.maxLocals

variable {d d' : Draft} {named named' : List (Int × Nat)} {out out' : List (Int × JType)}

/-- A count that has been raised far enough. -/
theorem Covers.raise (h : d.Covers named out) (hle : d.maxLocals ≤ d'.maxLocals)
    (hnamed : ∀ a ∈ named', a.1 + a.2 ≤ d'.maxLocals)
    (hout : ∀ a ∈ out', a.1 + a.2.size ≤ d'.maxLocals) :
    d'.Covers (named ++ named') (out ++ out') where
  nonneg := Int.le_trans h.nonneg hle
  named := List.forall_mem_append.2 ⟨fun a ha => Int.le_trans (h.named a ha) hle, hnamed⟩
  out := List.forall_mem_append.2 ⟨fun a ha => Int.le_trans (h.out a ha) hle, hout⟩

/-- An instruction raises the count to the end of the slots it names. -/
theorem maxLocals_emitPlace (d : Draft) (place : Option Instruction)
    (hfits : ∀ a ∈ (DraftStep.emit place).named, Word.min ≤ a.1 ∧ a.1 + a.2 ≤ Word.max) :
    d.maxLocals ≤ (d.emitPlace place).maxLocals ∧
      ∀ a ∈ (DraftStep.emit place).named, a.1 + a.2 ≤ (d.emitPlace place).maxLocals := by
  cases place with
  | none => exact ⟨Int.le_refl _, List.forall_mem_nil _⟩
  | some insn =>
    cases haccess : insn.slotAccess? with
    | none => simp [DraftStep.named, emitPlace, localsNeeded, haccess]
    | some access =>
      have hbounds := hfits access (by simp [DraftStep.named, haccess])
      have hwrap : Word.wrap (access.1 + access.2) = access.1 + access.2 :=
        Word.wrap_eq_self (by omega) hbounds.2
      have hcount :
          (d.emitPlace (some insn)).maxLocals = max d.maxLocals (access.1 + access.2) := by
        simp [emitPlace, localsNeeded, haccess, hwrap]
      have hnamed : (DraftStep.emit (some insn)).named = [access] := by
        simp [DraftStep.named, haccess]
      rw [hcount, hnamed]
      exact ⟨Int.le_max_left _ _, List.forall_mem_singleton.2 (Int.le_max_right _ _)⟩

/-- **What one step keeps.** -/
theorem Covers.take (h : d.Covers named out) (step : DraftStep)
    (hnamed : ∀ a ∈ step.named, Word.min ≤ a.1 ∧ a.1 + a.2 ≤ Word.max)
    (hout : ∀ a ∈ step.handedOut d, a.1 + a.2.size ≤ Word.max) :
    (d.take step).Covers (named ++ step.named) (out ++ step.handedOut d) := by
  cases step with
  | emit place =>
    obtain ⟨hle, hends⟩ := d.maxLocals_emitPlace place hnamed
    exact h.raise hle hends (List.forall_mem_nil _)
  | addLocal t =>
    have hnonneg := h.nonneg
    have hend : d.maxLocals + t.size ≤ Word.max := hout _ (List.mem_singleton_self _)
    have hwrap : Word.wrap (d.maxLocals + t.size) = d.maxLocals + t.size :=
      Word.wrap_eq_self (by unfold Word.min; omega) hend
    have hcount : (d.take (.addLocal t)).maxLocals = d.maxLocals + t.size := hwrap
    refine h.raise (by omega) (List.forall_mem_nil _) fun a ha => ?_
    obtain rfl := List.mem_singleton.1 ha
    exact Int.le_of_eq hcount.symm
  | limitLocals n =>
    exact h.raise (Int.le_max_left _ _) (List.forall_mem_nil _) (List.forall_mem_nil _)
  | addLabel | tryCatch b | limitStack n =>
    exact h.raise (Int.le_refl _) (List.forall_mem_nil _) (List.forall_mem_nil _)

/-- **What a sequence of steps keeps.** -/
theorem Covers.takeAll (h : d.Covers named out) {steps : List DraftStep} (hfits : d.Fits steps) :
    (d.takeAll steps).Covers (named ++ steps.flatMap DraftStep.named)
      (out ++ d.handedOut steps) := by
  induction steps generalizing d named out with
  | nil => simpa [Draft.takeAll, handedOut] using h
  | cons step rest ih =>
    obtain ⟨hnamed, hout⟩ := hfits
    rw [List.flatMap_cons] at hnamed
    rw [handedOut] at hout
    obtain ⟨hnamed, hnamed'⟩ := List.forall_mem_append.1 hnamed
    obtain ⟨hout, hout'⟩ := List.forall_mem_append.1 hout
    have hrest := ih (h.take step hnamed hout) ⟨hnamed', hout'⟩
    rwa [List.append_assoc, List.append_assoc, ← List.flatMap_cons] at hrest

/-! ### Free slots -/

/-- A slot belongs to a value of a type that is kept from another slot on. -/
def Holds (slot : Int) (t : JType) (k : Int) : Prop :=
  k = slot ∨ (t.size = 2 ∧ k = slot + 1)

/-- A slot holds the receiver or an argument of the routine that is drafted. -/
def IsArgument (d : Draft) (k : Int) : Prop :=
  ∃ signature, Signature.parse d.descriptor = .ok signature ∧ 0 ≤ k ∧
    k < signature.argumentsSize + if d.access.has .static then 0 else 1

/-- **The slot that would be handed out after steps is free**: neither it nor, for a wide type, the
next one holds an argument, is named by an instruction, or has been handed out. -/
def NextFree (d : Draft) (steps : List DraftStep) (t : JType) : Prop :=
  ∀ k, Holds ((d.takeAll steps).addLocal t).1 t k → ¬ d.IsArgument k ∧
    (∀ a ∈ steps.flatMap DraftStep.named, ¬ (a.1 ≤ k ∧ k < a.1 + a.2)) ∧
    ∀ a ∈ d.handedOut steps, ¬ Holds a.1 a.2 k

theorem covers_blank (owner : String) (access : Access) (name descriptor : String) :
    (blank owner access name descriptor).Covers [] [] :=
  ⟨Int.le_refl 0, List.forall_mem_nil _, List.forall_mem_nil _⟩

/-- **When a slot that is handed out is free.** The slots that instructions name are never in the
way. The slot is apart from the arguments and from the slots handed out before if and only if it is
not below the end of the arguments and has not been handed out for a type without a size. -/
theorem addLocal_free_iff (owner : String) (access : Access) (name : String) {descriptor : String}
    {signature : Signature} (hsignature : Signature.parse descriptor = .ok signature)
    {steps : List DraftStep} (hfits : (blank owner access name descriptor).Fits steps) (t : JType) :
    (blank owner access name descriptor).NextFree steps t ↔
      signature.argumentsSize + (if access.has .static then 0 else 1) ≤
          (((blank owner access name descriptor).takeAll steps).addLocal t).1 ∧
        ∀ a ∈ (blank owner access name descriptor).handedOut steps, a.2.size = 0 →
          a.1 ≠ (((blank owner access name descriptor).takeAll steps).addLocal t).1 := by
  have hcovers := (covers_blank owner access name descriptor).takeAll hfits
  rw [List.nil_append, List.nil_append] at hcovers
  have hslot : (((blank owner access name descriptor).takeAll steps).addLocal t).1 =
      ((blank owner access name descriptor).takeAll steps).maxLocals := rfl
  obtain ⟨hnonneg, hnamed, hout⟩ := hcovers
  rw [NextFree, hslot]
  -- from here on the count is any number that is above what has been named and handed out
  generalize ((blank owner access name descriptor).takeAll steps).maxLocals = slot at *
  constructor
  · intro hfree
    obtain ⟨hargument, -, hunused⟩ := hfree slot (.inl rfl)
    constructor
    · exact Int.not_lt.1 fun hlt => hargument ⟨signature, hsignature, hnonneg, hlt⟩
    · rintro a ha - heq
      exact hunused a ha (.inl heq.symm)
  · rintro ⟨harguments, hsizes⟩ k hk
    -- what the value takes begins at the slot, and everything covered ends there
    have hle : slot ≤ k := by
      rcases hk with rfl | ⟨-, rfl⟩ <;> omega
    refine ⟨?_, fun a ha hmem => ?_, fun a ha hmem => ?_⟩
    · rintro ⟨signature', hsignature', -, hlt⟩
      obtain rfl := Except.ok.inj (hsignature.symm.trans hsignature')
      exact absurd (Int.le_trans harguments hle) (Int.not_le.2 hlt)
    · have hend := hnamed a ha
      omega
    · have hend := hout a ha
      have hsize := hsizes a ha
      -- only a slot handed out for a type without a size can be handed out again
      rcases hmem with rfl | ⟨hwide, rfl⟩ <;> omega

theorem parse_oneInt : Signature.parse "(I)V" = .ok ⟨[.int], .void⟩ := by
  have hrun : (Signature.parse "(I)V").toOption.any fun s => s = ⟨[.int], .void⟩ := by
    decide +kernel
  obtain ⟨signature, hparse, heq⟩ := exists_ok_of_any hrun
  rw [hparse, of_decide_eq_true heq]

/-- With the argument loaded and a wide slot reserved, the next wide slot is free. -/
theorem addLocal_free_iff_reserving :
    (blank "T" .static "f" "(I)V").Fits [.emit (some (.slot (.load .int) 0)), .addLocal .long,
      .emit (some (.iinc 4 1))] ∧
    (blank "T" .static "f" "(I)V").NextFree [.emit (some (.slot (.load .int) 0)), .addLocal .long,
      .emit (some (.iinc 4 1))] .double := by
  have hfits : (blank "T" .static "f" "(I)V").Fits [.emit (some (.slot (.load .int) 0)),
      .addLocal .long, .emit (some (.iinc 4 1))] := by
    decide
  exact ⟨hfits, (addLocal_free_iff "T" .static "f" parse_oneInt hfits .double).2 (by decide)⟩

/-- The first slot that is handed out for a routine with an argument holds the argument. -/
theorem addLocal_takes_argument :
    ((blank "T" .static "f" "(I)V").addLocal .int).1 = 0 ∧
      (blank "T" .static "f" "(I)V").IsArgument 0 ∧
      ¬ (blank "T" .static "f" "(I)V").NextFree [] .int := by
  have hargument : (blank "T" .static "f" "(I)V").IsArgument 0 :=
    ⟨⟨[.int], .void⟩, parse_oneInt, by decide, by decide⟩
  exact ⟨rfl, hargument, fun hfree => (hfree 0 (.inl rfl)).1 hargument⟩

end Draft

end Outliner
