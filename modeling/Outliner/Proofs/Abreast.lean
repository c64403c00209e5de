import Outliner.Proofs.Descriptors
import Outliner.Proofs.Operands
import Outliner.Proofs.Suiting
import Outliner.Proofs.Tracking

/-!
# One instruction on two frames

An instruction that the tracker accepts on a frame, and that finds there the operands it asks for,
is accepted on every frame that does as well, and leaves one that does as well
(`Tracker.execute_outcome`). The two frames need not be of one routine: the second may lack the
cells below a floor and keep the slots in other places.

The tracker runs an instruction as a program, so the proof runs the program on both frames at once.
`Tracker.Abreast` says that what succeeds on the first succeeds on the second, and is put together
along the program; `Tracker.Paired` is the relation between the two states in between. On the way it
also keeps track of what the instruction leaves alone in the first frame: the cells below the floor
and the slots that are not written (`Tracker.Spares`).
-/

namespace Outliner

/-! ### Operands as values -/

/-- The cells that values take, the topmost value first. -/
def cellsOfAll (values : List JType) : List JType :=
  values.flatMap Frame.cellsOf

@[simp] theorem cellsOfAll_nil : cellsOfAll [] = [] := rfl

@[simp] theorem cellsOfAll_cons (t : JType) (values : List JType) :
    cellsOfAll (t :: values) = Frame.cellsOf t ++ cellsOfAll values := rfl

@[simp] theorem cellsOfAll_append (values values' : List JType) :
    cellsOfAll (values ++ values') = cellsOfAll values ++ cellsOfAll values' :=
  List.flatMap_append

section Values

variable {owner : String} {values values' rest gs : List JType}

theorem length_cellsOfAll_eq (h : List.Forall₂ (ValueSuits owner) values values') :
    (cellsOfAll values').length = (cellsOfAll values).length := by
  induction h with
  | nil => rfl
  | cons hhead _ ih => simp [hhead.length_cellsOf, ih]

/-- Values on top of a stack stand over values that do as well. -/
theorem StackSuits.popAll (h : StackSuits owner false (cellsOfAll values ++ rest) gs)
    (husable : ∀ t ∈ values, t ≠ .top) :
    ∃ values' gs', gs = cellsOfAll values' ++ gs' ∧
      List.Forall₂ (ValueSuits owner) values values' ∧ StackSuits owner false rest gs' := by
  induction values generalizing gs with
  | nil => exact ⟨[], gs, rfl, .nil, h⟩
  | cons t values ih =>
    rw [cellsOfAll_cons, List.append_assoc] at h
    obtain ⟨g, below, rfl, hvalue, hbelow⟩ := h.pop (husable t List.mem_cons_self)
    obtain ⟨values', gs', rfl, hvalues, hrest⟩ :=
      ih hbelow fun u hu => husable u (List.mem_cons_of_mem _ hu)
    exact ⟨g :: values', gs', by simp, .cons hvalue hvalues, hrest⟩

/-- Pushing values that do as well as others. -/
theorem StackSuits.pushAll (h : StackSuits owner false rest gs)
    (hvalues : List.Forall₂ (ValueSuits owner) values values') (husable : ∀ t ∈ values, t ≠ .top) :
    StackSuits owner false (cellsOfAll values ++ rest) (cellsOfAll values' ++ gs) := by
  induction hvalues with
  | nil => exact h
  | cons hhead _ ih =>
    rw [cellsOfAll_cons, cellsOfAll_cons, List.append_assoc, List.append_assoc]
    exact (ih fun u hu => husable u (List.mem_cons_of_mem _ hu)).push hhead
      (husable _ List.mem_cons_self)

end Values

/-- The number of cells that operands take. -/
def SlotKind.total (kinds : List SlotKind) : Nat :=
  kinds.foldr (fun kind n => kind.size + n) 0

theorem SlotKind.total_append (kinds kinds' : List SlotKind) :
    total (kinds ++ kinds') = total kinds + total kinds' := by
  induction kinds with
  | nil => simp [total]
  | cons kind rest ih =>
    simp only [total, List.cons_append, List.foldr_cons] at ih ⊢
    omega

theorem SlotKind.total_replicate (n : Nat) : total (List.replicate n .int) = n := by
  induction n with
  | zero => rfl
  | succ n ih =>
    simp only [total, List.replicate_succ, List.foldr_cons] at ih ⊢
    rw [ih]
    exact Nat.add_comm 1 n

theorem SlotKind.holds_usable {kind : SlotKind} {t : JType} (h : kind.holds t) :
    t ≠ .top ∧ t.size = kind.size := by
  cases kind with
  | ref =>
    cases t with
    | array _ | object _ | null | uninitialized _ _ => exact ⟨JType.noConfusion, rfl⟩
    | _ => cases h
  | _ =>
    obtain rfl := of_decide_eq_true h
    exact ⟨JType.noConfusion, rfl⟩

theorem Frame.length_cellsOf {t : JType} (h : t.size = 1 ∨ t.size = 2) :
    (cellsOf t).length = t.size := by
  unfold cellsOf
  split
  · next htwo => rw [htwo]; rfl
  · next htwo => rw [h.resolve_right htwo]; rfl

theorem SlotKind.length_cellsOf {kind : SlotKind} {t : JType} (h : kind.holds t) :
    (Frame.cellsOf t).length = kind.size := by
  have hsize := (holds_usable h).2
  rw [Frame.length_cellsOf, hsize]
  rw [hsize]
  cases kind with
  | long | double => exact .inr rfl
  | _ => exact .inl rfl

theorem SlotKind.length_cellsOfAll {kinds : List SlotKind} {values : List JType}
    (h : List.Forall₂ (fun kind t => kind.holds t) kinds values) :
    (cellsOfAll values).length = total kinds := by
  induction h with
  | nil => rfl
  | cons hhead _ ih =>
    rw [cellsOfAll_cons, List.length_append, ih, length_cellsOf hhead]
    rfl

namespace Instruction

/-- The values an instruction takes off the stack are of the right kinds, or, where it rearranges
them, of the right sizes. -/
def Kinds (insn : Instruction) (values : List JType) : Prop :=
  match insn.opcode with
  | .pop => (cellsOfAll values).length = 1
  | .pop2 => (cellsOfAll values).length = 2
  | .shuffle form => ∃ upper lower, values = upper ++ lower ∧
    (cellsOfAll upper).length = form.upper ∧ (cellsOfAll lower).length = form.lower
  | _ => List.Forall₂ (fun kind t => kind.holds t) insn.operands values

/-- The instruction with the slot it names replaced. -/
def reslot (place : Int → Int) : Instruction → Instruction
  | slot op index => slot op (place index)
  | iinc index amount => iinc (place index) amount
  | insn => insn

@[simp] theorem opcode_reslot (place : Int → Int) (insn : Instruction) :
    (insn.reslot place).opcode = insn.opcode := by
  cases insn <;> rfl

/-- Only accesses to fields, calls and arrays of arrays depend on more than the opcode. -/
theorem operands_eq {insn : Instruction} (hfield : ∀ op, insn.opcode ≠ .field op)
    (hinvoke : ∀ op, insn.opcode ≠ .invoke op) (hmulti : insn.opcode ≠ .multiArray) :
    insn.operands = insn.opcode.operands := by
  unfold operands
  split
  · exact absurd rfl (hfield _)
  · exact absurd rfl (hinvoke _)
  · exact absurd rfl hmulti
  · rfl

/-- The array an element of which is loaded as a reference is known to hold references. -/
def ArrayVerified (insn : Instruction) (stack : List JType) : Prop :=
  insn.opcode = .arrayLoad .ref →
    ∃ index array rest, stack = index :: array :: rest ∧ array.holdsReferences

/-- **An instruction takes the given values off the stack**, the topmost first. -/
structure Takes (insn : Instruction) (values : List JType) : Prop where
  usable : ∀ t ∈ values, t ≠ .top
  kinds : insn.Kinds values
  array : insn.opcode = .arrayLoad .ref →
    ∃ index array, values = [index, array] ∧ array.holdsReferences

end Instruction

theorem Begins.exists_values {kinds : List SlotKind} {stack : List JType}
    (h : Begins kinds stack) :
    ∃ values rest, stack = cellsOfAll values ++ rest ∧ (∀ t ∈ values, t ≠ .top) ∧
      List.Forall₂ (fun kind t => kind.holds t) kinds values := by
  induction kinds generalizing stack with
  | nil => exact ⟨[], stack, rfl, nofun, .nil⟩
  | cons kind rest ih =>
    obtain ⟨t, below, hholds, rfl, hbelow⟩ := h
    obtain ⟨values, rest', rfl, husable, hkinds⟩ := ih hbelow
    refine ⟨t :: values, rest', by simp, fun u hu => ?_, .cons hholds hkinds⟩
    rcases List.mem_cons.1 hu with rfl | hu
    · exact (SlotKind.holds_usable hholds).1
    · exact husable u hu

theorem Whole.exists_values {n : Nat} {stack : List JType} (h : Whole n stack) :
    ∃ values rest, stack = cellsOfAll values ++ rest ∧ (∀ t ∈ values, t ≠ .top) ∧
      (cellsOfAll values).length = n := by
  induction h with
  | zero stack => exact ⟨[], stack, rfl, nofun, rfl⟩
  | @single n t stack hsingle _ ih =>
    obtain ⟨values, rest, rfl, husable, hlength⟩ := ih
    simp only [JType.isSingle, Bool.and_eq_true, decide_eq_true_eq] at hsingle
    have hcells : Frame.cellsOf t = [t] := by simp [Frame.cellsOf, hsingle.1]
    refine ⟨t :: values, rest, by simp [hcells], fun u hu => ?_, ?_⟩
    · rcases List.mem_cons.1 hu with rfl | hu
      · exact hsingle.2
      · exact husable u hu
    · simp [hcells, hlength]
  | @wide n t stack htwo _ ih =>
    obtain ⟨values, rest, rfl, husable, hlength⟩ := ih
    have hcells : Frame.cellsOf t = [.top, t] := by simp [Frame.cellsOf, htwo]
    refine ⟨t :: values, rest, by simp [hcells], fun u hu => ?_, ?_⟩
    · rcases List.mem_cons.1 hu with rfl | hu
      · rintro rfl
        cases htwo
      · exact husable u hu
    · rw [cellsOfAll_cons, hcells, List.length_append, hlength]
      exact Nat.add_comm _ _

/-- What a verified instruction takes off. -/
theorem Instruction.exists_takes {insn : Instruction} {stack : List JType}
    (h : insn.StackVerified stack) (harray : insn.ArrayVerified stack) :
    ∃ values rest, stack = cellsOfAll values ++ rest ∧ insn.Takes values := by
  -- a load from an array of references finds the index on top and the array right below it
  have hbegins {values rest : List JType} (hstack : stack = cellsOfAll values ++ rest)
      (husable : ∀ t ∈ values, t ≠ .top)
      (hkinds : List.Forall₂ (fun kind t => kind.holds t) insn.operands values)
      (hop : insn.opcode = .arrayLoad .ref) :
      ∃ index array, values = [index, array] ∧ array.holdsReferences := by
    have hoperands : insn.operands = [.int, .ref] := by
      cases insn with
      | plain op | int op _ | slot op _ | type op _ | jump op _ =>
        obtain rfl : op = _ := hop
        rfl
      | field op _ _ _ | method op _ _ _ _ =>
        obtain rfl : op = _ := hop
        rfl
      | _ => cases hop
    rw [hoperands] at hkinds
    obtain ⟨i, a, hi, ha, rfl⟩ : ∃ i a, SlotKind.int.holds i ∧ SlotKind.ref.holds a ∧
        values = [i, a] := by
      cases hkinds with
      | cons hi hrest =>
      cases hrest with
      | cons ha hnil =>
      cases hnil
      exact ⟨_, _, hi, ha, rfl⟩
    have hcells {kind : SlotKind} {t : JType} (h : kind.holds t) (hone : kind.size = 1) :
        Frame.cellsOf t = [t] := by
      rw [Frame.cellsOf, if_neg]
      rw [(SlotKind.holds_usable h).2, hone]
      decide
    obtain ⟨index, array, below, hcons, hheld⟩ := harray hop
    rw [hstack] at hcons
    simp only [cellsOfAll_cons, hcells hi rfl, hcells ha rfl, cellsOfAll_nil, List.cons_append,
      List.nil_append, List.cons.injEq] at hcons
    exact ⟨i, a, rfl, hcons.2.1 ▸ hheld⟩
  have hne (hop : insn.opcode ≠ .arrayLoad .ref) {values : List JType} :
      insn.opcode = .arrayLoad .ref →
        ∃ index array, values = [index, array] ∧ array.holdsReferences :=
    fun h => absurd h hop
  -- rearrangements are verified by the sizes of the values they move, all else by kinds
  unfold StackVerified at h
  split at h
  · next hop =>
    obtain ⟨values, rest, hstack, husable, hlength⟩ := h.exists_values
    refine ⟨values, rest, hstack, husable, ?_, hne (by rw [hop]; decide)⟩
    unfold Kinds
    rw [hop]
    exact hlength
  · next hop =>
    obtain ⟨values, rest, hstack, husable, hlength⟩ := h.exists_values
    refine ⟨values, rest, hstack, husable, ?_, hne (by rw [hop]; decide)⟩
    unfold Kinds
    rw [hop]
    exact hlength
  · next form hop =>
    obtain ⟨upper, rest, hstack, husable, hlength⟩ := h.1.exists_values
    have hlower := h.2
    rw [hstack, ← hlength, List.drop_left] at hlower
    obtain ⟨lower, rest', hrest, husable', hlength'⟩ := hlower.exists_values
    refine ⟨upper ++ lower, rest', by simp [hstack, hrest], fun t ht => ?_, ?_, hne ?_⟩
    · exact (List.mem_append.1 ht).elim (husable t) (husable' t)
    · unfold Kinds
      rw [hop]
      exact ⟨upper, lower, rfl, hlength, hlength'⟩
    · rw [hop]
      exact Opcode.noConfusion
  · next hpop hpop2 hshuffle =>
    obtain ⟨values, rest, hstack, husable, hkinds⟩ := h.exists_values
    refine ⟨values, rest, hstack, husable, ?_, hbegins hstack husable hkinds⟩
    unfold Kinds
    split
    · next hop => exact absurd hop hpop
    · next hop => exact absurd hop hpop2
    · next form hop => exact absurd hop (hshuffle form)
    · exact hkinds

/-! ### Two runs at once -/

namespace Frame

/-- The value on top of a stack is taken off whole, unless it is a lone half under which there is
another one. -/
theorem pop?_cellsOf {t : JType} {rest : List JType} {locals : SlotMap JType}
    (h : t = .top → ∀ u below, rest = u :: below → u.size ≠ 2) :
    Frame.pop? ⟨cellsOf t ++ rest, locals⟩ = some (t, ⟨rest, locals⟩) := by
  unfold cellsOf
  split
  · next htwo => simp [pop?, htwo]
  · by_cases htop : t = .top
    · subst htop
      cases rest with
      | nil => rfl
      | cons u below => simp [pop?, h rfl u below rfl]
    · cases t with
      | top => exact absurd rfl htop
      | _ => rfl

/-- The frame with every type changed. -/
def mapTypes (φ : JType → JType) (f : Frame) : Frame :=
  ⟨f.stack.map φ, f.locals.mapWithSlot fun _ => φ⟩

theorem mapTypes_id (f : Frame) : f.mapTypes id = f := by
  have hlocals : f.locals.mapWithSlot (fun _ => id) = f.locals :=
    SlotMap.ext_entries (by simp [SlotMap.mapWithSlot])
  unfold mapTypes
  rw [hlocals, List.map_id]

theorem slot_mapTypes {φ : JType → JType} (h : φ .top = .top) (f : Frame) (slot : Int) :
    (f.mapTypes φ).slot slot = φ (f.slot slot) := by
  unfold mapTypes Frame.slot
  rw [SlotMap.get?_mapWithSlot]
  cases f.locals.get? slot with
  | none => exact h.symm
  | some t => rfl

/-- A store changes a slot to the stored type, or makes it unusable; other slots stay as they are
or become unusable. -/
theorem slot_setSlot_or (f : Frame) (index : Int) (t : JType) (s : Int) :
    (f.setSlot index t).slot s = (if s = index then t else f.slot s) ∨
      (f.setSlot index t).slot s = .top := by
  unfold setSlot slot
  dsimp only
  split
  · split
    · split <;> grind [SlotMap.get?_insert]
    · split <;> grind [SlotMap.get?_insert]
  · split <;> grind [SlotMap.get?_insert]

end Frame

namespace Tracker

section Abreast

variable {α β : Type} {P : State → State → Prop} {Q : α → α → State → State → Prop}
  {R : β → β → State → State → Prop} {x y : Track α}

/-- **What succeeds in the first state succeeds in the second.** -/
def Abreast (P : State → State → Prop) (x y : Track α) (Q : α → α → State → State → Prop) : Prop :=
  ∀ s s' a u, P s s' → x.run s = .ok a u → ∃ a' u', y.run s' = .ok a' u' ∧ Q a a' u u'

namespace Abreast

protected theorem pure {a a' : α} (h : ∀ s s', P s s' → Q a a' s s') :
    Abreast P (pure a) (pure a') Q := by
  intro s s' b u hP hrun
  cases hrun
  exact ⟨a', s', rfl, h s s' hP⟩

protected theorem bind {f g : α → Track β} (hx : Abreast P x y Q)
    (hf : ∀ a a', Abreast (Q a a') (f a) (g a') R) : Abreast P (x >>= f) (y >>= g) R := by
  intro s s' b u hP hrun
  obtain ⟨a, s₁, h₁, h₂⟩ := bind_ok.1 hrun
  obtain ⟨a', s₁', h₁', hQ⟩ := hx s s' a s₁ hP h₁
  obtain ⟨b', u', h₂', hR⟩ := hf a a' s₁ s₁' b u hQ h₂
  exact ⟨b', u', bind_ok.2 ⟨a', s₁', h₁', h₂'⟩, hR⟩

theorem refuse {fault : TrackFault} : Abreast P (Tracker.refuse fault) y Q := nofun

theorem breakdown : Abreast P Tracker.breakdown y Q := nofun

theorem modify {P Q : State → State → Prop} {f g : State → State}
    (h : ∀ s s', P s s' → Q (f s) (g s')) :
    Abreast P (modify f) (modify g) fun _ _ => Q := by
  intro s s' a u hP hrun
  cases hrun
  exact ⟨(), g s', rfl, h s s' hP⟩

theorem get : Abreast P get get fun s s' u u' => s = u ∧ s' = u' ∧ P u u' := by
  intro s s' a u hP hrun
  cases hrun
  exact ⟨s', s', rfl, rfl, rfl, hP⟩

end Abreast

theorem pop_run {n : Nat} {s : State} (h : n ≤ s.frame.depth) :
    (pop n).run s = .ok (s.frame.stack.take n) { s with
      frame := ⟨s.frame.stack.drop n, s.frame.locals⟩
      low := min s.low (s.frame.depth - n) } := by
  refine bind_ok.2 ⟨s, s, rfl, ?_⟩
  have hpop : s.frame.popN? n =
      some (s.frame.stack.take n, ⟨s.frame.stack.drop n, s.frame.locals⟩) := if_pos h
  have hdepth : Frame.depth ⟨s.frame.stack.drop n, s.frame.locals⟩ = s.frame.depth - n :=
    List.length_drop
  rw [hpop, ← hdepth]
  rfl

theorem popValue_run {s : State} {t : JType} {f : Frame} (h : s.frame.pop? = some (t, f)) :
    popValue.run s = .ok t { s with frame := f, low := min s.low f.depth } := by
  refine bind_ok.2 ⟨s, s, rfl, ?_⟩
  rw [h]
  rfl

end Abreast

/-! ### The relation -/

/-- Where an instruction is executed twice: the first frame with the cells below the floor, and
where the second keeps the slots that count. -/
structure Setting where
  owner : String
  place : Int → Int
  touched : Int → Prop
  start : Frame
  base : List JType

variable {c : Setting} {values values' : List JType} {taken : Nat} {s s' : State}

/-- What an instruction has left alone in the first frame. -/
structure Spares (c : Setting) (base : List JType) (s : State) : Prop where
  base : List.Forall₂ (JType.Eases c.owner) base c.base
  slots : ∀ slot, (∃ a ∈ s.writes, a.slot = slot) ∨
    (s.frame.slot slot).Eases c.owner (c.start.slot slot)

/-- **The two states in the middle of an instruction** that has yet to take `values` off, and has
taken `taken` cells off. -/
structure Paired (c : Setting) (values : List JType) (taken : Nat) (s s' : State) : Prop where
  stack : ∃ rest base, s.frame.stack = cellsOfAll values ++ rest ++ base ∧ Spares c base s ∧
    StackSuits c.owner false (cellsOfAll values ++ rest) s'.frame.stack
  usable : ∀ t ∈ values, t ≠ .top
  slots : ∀ slot, c.touched slot →
    (s.frame.slot slot).Suits c.owner (s'.frame.slot (c.place slot))
  low : s.low + taken ≤ c.start.depth
  depth : values ≠ [] → s.frame.depth + taken ≤ c.start.depth

/-! #### Taking cells off -/

theorem abreast_pop (values' : List JType) (taken : Nat) {n : Nat}
    (hn : (cellsOfAll values).length = n) :
    Abreast (Paired c (values ++ values') taken) (pop n) (pop n) fun cells cells' s s' =>
      (∃ suiting, cells = cellsOfAll values ∧ cells' = cellsOfAll suiting ∧
        List.Forall₂ (ValueSuits c.owner) values suiting) ∧ Paired c values' (taken + n) s s' := by
  rintro s s' cells u ⟨⟨rest, base, hstack, hspares, hsuits⟩, husable, hslots, hlow, hdepth⟩ hrun
  rw [cellsOfAll_append, List.append_assoc] at hsuits
  obtain ⟨suiting, below, hbelow, hvalues, hrest⟩ :=
    hsuits.popAll fun t ht => husable t (List.mem_append_left _ ht)
  have hlength : (cellsOfAll suiting).length = n := by rw [length_cellsOfAll_eq hvalues, hn]
  -- on both sides the cells of the values are on top, so that many come off
  have htake {l : List JType} {cs below : List JType} (hl : l = cs ++ below) (hcs : cs.length = n) :
      n ≤ l.length ∧ l.take n = cs ∧ l.drop n = below := by
    subst hl hcs
    simp
  rw [cellsOfAll_append, List.append_assoc, List.append_assoc] at hstack
  obtain ⟨hle, htaken, hdropped⟩ := htake hstack hn
  obtain ⟨hle', htaken', hdropped'⟩ := htake hbelow hlength
  rw [pop_run hle] at hrun
  cases hrun
  refine ⟨_, _, pop_run hle', ⟨suiting, htaken, htaken', hvalues⟩, ?_⟩
  have hnew : Frame.depth ⟨s.frame.stack.drop n, s.frame.locals⟩ + n = s.frame.depth := by
    simp only [Frame.depth, List.length_drop]
    omega
  refine ⟨⟨rest, base, ?_, ⟨hspares.base, hspares.slots⟩, ?_⟩,
    fun t ht => husable t (List.mem_append_right _ ht), hslots, ?_, fun hne => ?_⟩
  · dsimp only
    rw [hdropped, List.append_assoc]
  · dsimp only
    rw [hdropped']
    exact hrest
  · dsimp only
    -- if nothing comes off, nothing is known about the depth, and nothing changes either
    by_cases hnil : values ++ values' = []
    · obtain ⟨rfl, -⟩ := List.append_eq_nil_iff.1 hnil
      obtain rfl : 0 = n := hn
      omega
    · have := hdepth hnil
      omega
  · have := hdepth (by simp [hne])
    dsimp only
    omega

/-- Taking all operands off before going on. -/
theorem abreast_popThen {n : Nat} (hn : (cellsOfAll values).length = n)
    {f g : List JType → Track Unit} {R : Unit → Unit → State → State → Prop}
    (h : ∀ cells cells', Abreast (Paired c [] n) (f cells) (g cells') R) :
    Abreast (Paired c values 0) (pop n >>= f) (pop n >>= g) R := by
  have hpop := abreast_pop (c := c) [] 0 hn
  rw [List.append_nil, Nat.zero_add] at hpop
  exact hpop.bind fun cells cells' s s' b u hP => h cells cells' s s' b u hP.2

/-- Taking cells off and leaving it at that. -/
theorem abreast_drop {n : Nat} (hn : (cellsOfAll values).length = n) :
    Abreast (Paired c values 0) (pop n >>= fun _ => pure ()) (pop n >>= fun _ => pure ())
      fun _ _ => Paired c [] (cellsOfAll values).length :=
  abreast_popThen hn fun _ _ => .pure fun _ _ h => hn ▸ h

theorem abreast_popValue {t : JType} :
    Abreast (Paired c (t :: values) taken) popValue popValue fun a a' s s' =>
      (a = t ∧ ValueSuits c.owner t a') ∧
        Paired c values (taken + (Frame.cellsOf t).length) s s' := by
  rintro s s' a u ⟨⟨rest, base, hstack, hspares, hsuits⟩, husable, hslots, hlow, hdepth⟩ hrun
  have htop := husable t List.mem_cons_self
  rw [cellsOfAll_cons, List.append_assoc] at hsuits
  obtain ⟨g, below, hbelow, hvalue, hrest⟩ := hsuits.pop htop
  rw [cellsOfAll_cons, List.append_assoc, List.append_assoc] at hstack
  have hdepth' := hdepth (List.cons_ne_nil _ _)
  obtain ⟨⟨stack, locals⟩, low, reads, writes⟩ := s
  obtain ⟨⟨stack', locals'⟩, low', reads', writes'⟩ := s'
  dsimp only at hstack hbelow hlow hdepth'
  subst hstack hbelow
  have hpop : popValue.run (⟨⟨Frame.cellsOf t ++ (cellsOfAll values ++ (rest ++ base)), locals⟩,
      low, reads, writes⟩ : State) = _ :=
    popValue_run (Frame.pop?_cellsOf fun h => absurd h htop)
  rw [hpop] at hrun
  cases hrun
  -- on the second side, too, the cell below must not be taken for the first half of the value
  refine ⟨_, _, popValue_run (Frame.pop?_cellsOf fun _ u below' heq => ?_), ⟨rfl, hvalue⟩,
    ⟨rest, base, by simp, ⟨hspares.base, hspares.slots⟩, hrest⟩,
    fun u hu => husable u (List.mem_cons_of_mem _ hu), hslots, ?_, fun _ => ?_⟩
  · exact (heq ▸ hrest).head_size
  · simp only [Frame.depth, List.length_append] at hdepth' ⊢
    omega
  · simp only [Frame.depth, List.length_append] at hdepth' ⊢
    omega

/-! #### Putting cells on -/

theorem Paired.setStack {cells cells' : List JType} (h : Paired c [] taken s s')
    (hcells : ∀ rest gs, StackSuits c.owner false rest gs →
      StackSuits c.owner false (cells ++ rest) (cells' ++ gs)) :
    Paired c [] taken { s with frame := { s.frame with stack := cells ++ s.frame.stack } }
      { s' with frame := { s'.frame with stack := cells' ++ s'.frame.stack } } := by
  obtain ⟨⟨rest, base, hstack, hspares, hsuits⟩, -, hslots, hlow, -⟩ := h
  refine ⟨⟨cells ++ rest, base, ?_, ⟨hspares.base, hspares.slots⟩, hcells _ _ hsuits⟩, nofun,
    hslots, hlow, fun hne => absurd rfl hne⟩
  dsimp only
  rw [hstack]
  simp

theorem abreast_push {t g : JType} (hv : ValueSuits c.owner t g) (htop : t ≠ .top) :
    Abreast (Paired c [] taken) (push t) (push g) fun _ _ => Paired c [] taken :=
  .modify fun _ _ h => h.setStack fun _ _ hrest => hrest.push hv htop

theorem abreast_pushTop :
    Abreast (Paired c [] taken) (push .top) (push .top) fun _ _ => Paired c [] taken :=
  .modify fun _ _ h => h.setStack fun _ _ hrest => hrest.push_top

/-- Taking one value off and pushing what is made of it. -/
theorem abreast_replaceTop {t : JType} {f g : JType → JType} (hvalues : values = [t])
    (hv : ∀ a', ValueSuits c.owner t a' → ValueSuits c.owner (f t) (g a')) (htop : f t ≠ .top) :
    Abreast (Paired c values 0) (popValue >>= fun a => push (f a))
      (popValue >>= fun a => push (g a))
      fun _ _ => Paired c [] (cellsOfAll values).length := by
  subst hvalues
  refine abreast_popValue.bind fun a a' s s' b u h => ?_
  obtain ⟨⟨rfl, ha'⟩, hpaired⟩ := h
  rw [Nat.zero_add] at hpaired
  rw [cellsOfAll_cons, cellsOfAll_nil, List.append_nil]
  exact abreast_push (hv a' ha') htop s s' b u hpaired

theorem abreast_popPush {n : Nat} (hn : (cellsOfAll values).length = n) {t : JType}
    (htop : t ≠ .top) :
    Abreast (Paired c values 0) (popPush n t) (popPush n t)
      fun _ _ => Paired c [] (cellsOfAll values).length := by
  rw [hn]
  exact abreast_popThen hn fun _ _ => abreast_push (.refl _ t) htop

/-! #### Slots -/

theorem abreast_read {slot slot' : Int} {size : Nat} :
    Abreast (Paired c values taken) (read slot size) (read slot' size)
      fun _ _ => Paired c values taken :=
  .modify fun _ _ ⟨⟨rest, base, hstack, hspares, hsuits⟩, husable, hslots, hlow, hdepth⟩ =>
    ⟨⟨rest, base, hstack, ⟨hspares.base, hspares.slots⟩, hsuits⟩, husable, hslots, hlow, hdepth⟩

/-- Slots that count have places of their own. -/
def Setting.Apart (c : Setting) : Prop :=
  ∀ slot slot', c.touched slot → c.touched slot' → c.place slot = c.place slot' → slot = slot'

theorem abreast_write (hapart : c.Apart) {slot : Int} (htouched : c.touched slot) {t g : JType}
    (hsuits : t.Suits c.owner g) :
    Abreast (Paired c [] taken) (write slot t) (write (c.place slot) g)
      fun _ _ => Paired c [] taken := by
  refine .modify fun s s' h => ?_
  obtain ⟨⟨rest, base, hstack, hspares, hstacks⟩, -, hslots, hlow, -⟩ := h
  refine ⟨⟨rest, base, hstack, ⟨hspares.base, fun other => ?_⟩, hstacks⟩, nofun,
    fun other hother => ?_, hlow, fun hne => absurd rfl hne⟩
  · -- in the first frame, a slot that is not written keeps its type or loses it to a wide neighbour
    by_cases heq : other = slot
    · exact .inl ⟨⟨slot, t.size⟩, by simp, heq.symm⟩
    · rcases hspares.slots other with ⟨a, ha, hslot⟩ | heases
      · exact .inl ⟨a, List.mem_append_left _ ha, hslot⟩
      · right
        dsimp only
        rcases s.frame.slot_setSlot_or slot t other with h | h
        · rw [h, if_neg heq]
          exact heases
        · rw [h]
          exact JType.top_eases _ _
  · -- in the second frame, slots in different places are told apart
    dsimp only
    rcases s'.frame.slot_setSlot_or (c.place slot) g (c.place other) with h' | h'
    · rcases s.frame.slot_setSlot_or slot t other with h | h
      · rw [h, h']
        by_cases heq : other = slot
        · rw [if_pos heq, if_pos (by rw [heq])]
          exact hsuits
        · rw [if_neg heq, if_neg fun hplace => heq (hapart other slot hother htouched hplace)]
          exact hslots other hother
      · rw [h]
        exact JType.suits_of_holdsReferences rfl
    · rw [h']
      exact JType.suits_top _ _

/-! #### Constructors -/

/-- A change of types that runs constructors at most. -/
def Settles (owner : String) (φ : JType → JType) : Prop :=
  ∀ t, φ t = t ∨ (t.isUninitialized ∧ φ t = t.settled owner)

theorem settles_id (owner : String) : Settles owner id := fun _ => .inl rfl

theorem settles_replace (owner className : String) (site : Int) :
    Settles owner fun t => if t = .uninitialized className site then
      initialized owner className site else t := by
  intro t
  by_cases h : t = .uninitialized className site
  · subst h
    exact .inr ⟨rfl, if_pos rfl⟩
  · exact .inl (if_neg h)

namespace Settles

variable {owner : String} {φ : JType → JType}

theorem settled (h : Settles owner φ) (t : JType) : (φ t).settled owner = t.settled owner := by
  rcases h t with heq | ⟨-, heq⟩
  · rw [heq]
  · rw [heq, JType.settled_settled]

theorem size (h : Settles owner φ) (t : JType) : (φ t).size = t.size := by
  rw [← JType.size_settled owner, h.settled, JType.size_settled]

theorem eq_top_iff (h : Settles owner φ) (t : JType) : φ t = .top ↔ t = .top := by
  rw [← @JType.settled_eq_top_iff owner, h.settled, JType.settled_eq_top_iff]

theorem eases (h : Settles owner φ) (t : JType) : (φ t).Eases owner t :=
  JType.eases_of_settled (h.settled t)

theorem eq_of_size (h : Settles owner φ) {t : JType} (hsize : t.size = 2) : φ t = t := by
  rcases h t with heq | ⟨huninit, -⟩
  · exact heq
  · cases t with
    | uninitialized _ _ => cases hsize
    | _ => cases huninit

theorem suits (h : Settles owner φ) {t g : JType} (hs : t.Suits owner g) : t.Suits owner (φ g) := by
  unfold JType.Suits
  rw [h.settled]
  exact hs

/-- Running constructors in a stack that does as well as another one. -/
theorem stackSuits (h : Settles owner φ) {under : Bool} {ts gs : List JType}
    (hs : StackSuits owner under ts gs) : StackSuits owner under ts (gs.map φ) := by
  induction hs with
  | nil => exact .nil
  | @cons under t g ts gs cell _ ih =>
    refine .cons ⟨fun hsize => ?_, fun hsize htop => ?_, fun hsize => ?_, h.suits cell.suits⟩
      (ih.under_of_imp fun hboth => ?_)
    · have hg := cell.wide hsize
      subst hg
      exact h.eq_of_size hsize
    · rw [h.size]
      exact cell.narrow hsize htop
    · rw [h.size] at hsize
      exact cell.under hsize
    · simp only [decide_eq_true_eq] at hboth ⊢
      exact ⟨hboth.1, (h.eq_top_iff g).2 hboth.2⟩

end Settles

theorem Paired.settle {φ ψ : JType → JType} (hφ : Settles c.owner φ) (hψ : Settles c.owner ψ)
    (h : Paired c [] taken s s') :
    Paired c [] taken { s with frame := s.frame.mapTypes φ }
      { s' with frame := s'.frame.mapTypes ψ } := by
  obtain ⟨⟨rest, base, hstack, hspares, hsuits⟩, -, hslots, hlow, -⟩ := h
  have hmap (l : List JType) : List.Forall₂ (JType.Eases c.owner) (l.map φ) l := by
    rw [List.forall₂_map_left_iff]
    exact List.forall₂_same.2 fun t _ => hφ.eases t
  have hslot (slot : Int) := s.frame.slot_mapTypes ((hφ.eq_top_iff .top).2 rfl) slot
  have hslot' (slot : Int) := s'.frame.slot_mapTypes ((hψ.eq_top_iff .top).2 rfl) slot
  refine ⟨⟨rest.map φ, base.map φ, ?_, ⟨?_, fun slot => ?_⟩,
    hψ.stackSuits (hsuits.ease (hmap rest))⟩, nofun, fun slot htouched => ?_, hlow,
    fun hne => absurd rfl hne⟩
  · change s.frame.stack.map φ = _
    rw [hstack]
    simp
  · rw [List.forall₂_map_left_iff]
    exact hspares.base.imp fun t _ ht => (hφ.eases t).trans ht
  · refine (hspares.slots slot).imp_right fun heases => ?_
    change ((s.frame.mapTypes φ).slot slot).Eases c.owner (c.start.slot slot)
    rw [hslot]
    exact (hφ.eases _).trans heases
  · change ((s.frame.mapTypes φ).slot slot).Suits c.owner ((s'.frame.mapTypes ψ).slot _)
    rw [hslot, hslot']
    exact (hφ.eases _).suits (hψ.suits (hslots slot htouched))

/-- The rest of a call once its receiver is taken off: a constructor makes it an object. -/
structure Receives (owner name : String) (m : JType → Track Unit) (k : Track Unit) : Prop where
  other : ∀ t, t.isUninitialized = false → m t = k
  uninitialized : ∀ className site, m (.uninitialized className site) =
    if name = "<init>" then
      (modify fun s => { s with
        frame := s.frame.replace (.uninitialized className site)
          (initialized owner className site) }) >>= fun _ => k
    else k

theorem Receives.run {owner name : String} {m : JType → Track Unit} {k : Track Unit}
    (h : Receives owner name m k) (receiver : JType) :
    ∃ φ, Settles owner φ ∧
      ∀ s, (m receiver).run s = k.run { s with frame := s.frame.mapTypes φ } := by
  have hsame : m receiver = k → ∃ φ, Settles owner φ ∧
      ∀ s, (m receiver).run s = k.run { s with frame := s.frame.mapTypes φ } :=
    fun heq => ⟨id, settles_id owner, fun s => by rw [heq, Frame.mapTypes_id]⟩
  cases receiver with
  | uninitialized className site =>
    have hm := h.uninitialized className site
    split at hm
    · exact ⟨_, settles_replace owner className site, fun s => by rw [hm]; rfl⟩
    · exact hsame hm
  | _ => exact hsame (h.other _ rfl)

theorem abreast_receives (name : String) {m : JType → Track Unit} {k : Track Unit}
    (h : Receives c.owner name m k) {R : Unit → Unit → State → State → Prop}
    (hk : Abreast (Paired c [] taken) k k R) (a a' : JType) :
    Abreast (Paired c [] taken) (m a) (m a') R := by
  obtain ⟨φ, hφ, hrun⟩ := h.run a
  obtain ⟨ψ, hψ, hrun'⟩ := h.run a'
  intro s s' b u hP hb
  rw [hrun] at hb
  rw [hrun']
  exact hk _ _ b u (hP.settle hφ hψ) hb

/-! ### Instructions -/

theorem ofField_usable (field : FieldType) :
    JType.ofField field ≠ .top ∧
      (JType.ofField field).slotKind.size = (JType.ofField field).size := by
  cases field with
  | prim p => exact ⟨JType.noConfusion, by cases p <;> rfl⟩
  | object name | array elem => exact ⟨JType.noConfusion, rfl⟩

theorem parse_usable {descriptor : String} {t : JType} (h : JType.parse descriptor = .ok t) :
    t ≠ .top ∧ (t ≠ .void → t.slotKind.size = t.size) := by
  unfold JType.parse at h
  cases hfield : parseField descriptor with
  | error e => rw [hfield] at h; cases h
  | ok type =>
    rw [hfield] at h
    obtain rfl := Except.ok.inj h
    cases type with
    | none => exact ⟨JType.noConfusion, fun hne => absurd rfl hne⟩
    | some field => exact ⟨(ofField_usable field).1, fun _ => (ofField_usable field).2⟩

theorem computational_usable {t : JType} (h : t ≠ .top) : t.computational ≠ .top := by
  cases t with
  | top => exact absurd rfl h
  | prim p => cases p <;> exact JType.noConfusion
  | _ => exact JType.noConfusion

theorem ofClassName_usable (name : String) : JType.ofClassName name ≠ .top := by
  rcases JType.ofClassName_eq name with ⟨component, h⟩ | h <;> rw [h] <;> exact JType.noConfusion

theorem signature_usable {descriptor : String} {signature : Signature}
    (h : Signature.parse descriptor = .ok signature) :
    signature.result ≠ .top ∧
      SlotKind.total (signature.args.map JType.slotKind).reverse = signature.argumentsSize := by
  obtain ⟨m, -, rfl⟩ := Signature.parse_eq_ok.1 h
  refine ⟨?_, ?_⟩
  · change JType.ofResult m.result ≠ .top
    cases m.result with
    | none => exact JType.noConfusion
    | some field => exact (ofField_usable field).1
  · unfold Signature.argumentsSize JType.sizeOfAll
    dsimp only
    induction m.args with
    | nil => rfl
    | cons field rest ih =>
      rw [List.map_cons, List.map_cons, List.reverse_cons, SlotKind.total_append, ih,
        List.foldr_cons, ← (ofField_usable field).2]
      exact Nat.add_comm _ _

theorem abreast_access {op : FieldOp} {descriptor : String}
    (hvoid : JType.parse descriptor ≠ .ok .void)
    (hkinds : ∀ t, JType.parse descriptor = .ok t →
      List.Forall₂ (fun kind t => kind.holds t) (op.operands t) values) :
    Abreast (Paired c values 0) (access op descriptor) (access op descriptor)
      fun _ _ => Paired c [] (cellsOfAll values).length := by
  unfold access
  split
  · exact .refuse
  next t ht =>
  obtain ⟨htop, hsize⟩ := parse_usable ht
  have hsize := hsize fun h => hvoid (h ▸ ht)
  have hholds := hkinds t ht
  have hlength := SlotKind.length_cellsOfAll hholds
  cases op with
  | getStatic =>
    cases hholds
    exact abreast_push (.refl _ _) (computational_usable htop)
  | putStatic =>
    refine abreast_drop (hlength.trans ?_)
    rw [← hsize]
    rfl
  | getField =>
    cases hholds with
    | cons href hnil =>
    cases hnil
    exact abreast_replaceTop rfl (fun _ _ => .refl _ _) (computational_usable htop)
  | putField =>
    refine abreast_drop (hlength.trans ?_)
    rw [← hsize]
    rfl

theorem abreast_call {op : InvokeOp} {name descriptor : String}
    (hkinds : ∀ signature, Signature.parse descriptor = .ok signature →
      List.Forall₂ (fun kind t => kind.holds t) (op.operands signature) values) :
    Abreast (Paired c values 0) (call c.owner op name descriptor)
      (call c.owner op name descriptor) fun _ _ => Paired c [] (cellsOfAll values).length := by
  unfold call
  split
  · exact .refuse
  next signature hsignature =>
  obtain ⟨hresult, hargs⟩ := signature_usable hsignature
  have hpush (taken : Nat) : Abreast (Paired c [] taken) (pushResult signature.result)
      (pushResult signature.result) fun _ _ => Paired c [] taken := by
    unfold pushResult
    split
    · exact .pure fun _ _ h => h
    · exact abreast_push (.refl _ _) (computational_usable hresult)
  have harguments {receiver : List SlotKind} (hholds : List.Forall₂ (fun kind t => kind.holds t)
      ((signature.args.map JType.slotKind).reverse ++ receiver) values) :
      ∃ args rest, values = args ++ rest ∧ (cellsOfAll args).length = signature.argumentsSize ∧
        List.Forall₂ (fun kind t => kind.holds t) receiver rest := by
    refine ⟨_, _, (List.take_append_drop _ values).symm, ?_,
      (List.forall₂_drop_append _ _ _ hholds.flip).flip⟩
    rw [SlotKind.length_cellsOfAll (List.forall₂_take_append _ _ _ hholds.flip).flip, hargs]
  -- A call with a receiver takes it off after the arguments.
  have hreceiver {m : JType → Track Unit} (hm : ∀ taken a a',
        Abreast (Paired c [] taken) (m a) (m a') fun _ _ => Paired c [] taken)
      (hholds : List.Forall₂ (fun kind t => kind.holds t)
        ((signature.args.map JType.slotKind).reverse ++ [.ref]) values) :
      Abreast (Paired c values 0)
        (pop signature.argumentsSize >>= fun _ => popValue >>= m)
        (pop signature.argumentsSize >>= fun _ => popValue >>= m)
        fun _ _ => Paired c [] (cellsOfAll values).length := by
    obtain ⟨args, rest, rfl, hlength, hrest⟩ := harguments hholds
    cases hrest with
    | @cons _ receiver _ _ href hnil =>
    cases hnil
    refine (abreast_pop [receiver] 0 hlength).bind fun cells cells' => ?_
    refine Abreast.bind (fun s s' a u h => abreast_popValue s s' a u h.2) fun a a' => ?_
    have htotal : 0 + signature.argumentsSize + (Frame.cellsOf receiver).length =
        (cellsOfAll (args ++ [receiver])).length := by
      rw [cellsOfAll_append, List.length_append, hlength, cellsOfAll_cons, cellsOfAll_nil,
        List.append_nil, Nat.zero_add]
    rw [htotal]
    exact fun s s' b u h => hm _ a a' s s' b u h.2
  have hclosed (hholds : List.Forall₂ (fun kind t => kind.holds t)
      ((signature.args.map JType.slotKind).reverse ++ []) values) :
      Abreast (Paired c values 0)
        (pop signature.argumentsSize >>= fun _ => pushResult signature.result)
        (pop signature.argumentsSize >>= fun _ => pushResult signature.result)
        fun _ _ => Paired c [] (cellsOfAll values).length := by
    obtain ⟨args, rest, rfl, hlength, hrest⟩ := harguments hholds
    cases hrest
    refine (abreast_pop [] 0 hlength).bind fun cells cells' => ?_
    rw [List.append_nil, hlength, Nat.zero_add]
    exact fun s s' b u h => hpush _ s s' b u h.2
  have hholds := hkinds signature hsignature
  cases op with
  | static | dynamic => exact hclosed hholds
  | «virtual» | interface =>
    exact hreceiver (m := fun _ => pushResult signature.result)
      (fun taken _ _ => hpush taken) hholds
  | special =>
    refine hreceiver (fun taken => abreast_receives name
      ⟨fun t ht => ?_, fun className site => ?_⟩ (hpush taken)) hholds
    · cases t with
      | uninitialized _ _ => cases ht
      | _ => rfl
    · rfl

/-- Rearranging puts back what was taken off in front of it, or, for a swap, turns it round. -/
theorem apply_append (form : Shuffle) {cells below : List JType}
    (hcells : cells.length = form.upper) (hbelow : below.length = form.lower) :
    form.apply (cells ++ below) = some (if form = .swap then below ++ cells
      else cells ++ below ++ cells) ∧ (cells ++ below).length = form.taken := by
  cases form with
  | dup =>
    obtain ⟨a, rfl⟩ := List.length_eq_one_iff.1 hcells
    obtain rfl := List.length_eq_zero_iff.1 hbelow
    exact ⟨rfl, rfl⟩
  | dupX1 =>
    obtain ⟨a, rfl⟩ := List.length_eq_one_iff.1 hcells
    obtain ⟨b, rfl⟩ := List.length_eq_one_iff.1 hbelow
    exact ⟨rfl, rfl⟩
  | dupX2 =>
    obtain ⟨a, rfl⟩ := List.length_eq_one_iff.1 hcells
    obtain ⟨b, c, rfl⟩ := List.length_eq_two.1 hbelow
    exact ⟨rfl, rfl⟩
  | dup2 =>
    obtain ⟨a, b, rfl⟩ := List.length_eq_two.1 hcells
    obtain rfl := List.length_eq_zero_iff.1 hbelow
    exact ⟨rfl, rfl⟩
  | dup2X1 =>
    obtain ⟨a, b, rfl⟩ := List.length_eq_two.1 hcells
    obtain ⟨c, rfl⟩ := List.length_eq_one_iff.1 hbelow
    exact ⟨rfl, rfl⟩
  | dup2X2 =>
    obtain ⟨a, b, rfl⟩ := List.length_eq_two.1 hcells
    obtain ⟨c, d, rfl⟩ := List.length_eq_two.1 hbelow
    exact ⟨rfl, rfl⟩
  | swap =>
    obtain ⟨a, rfl⟩ := List.length_eq_one_iff.1 hcells
    obtain ⟨b, rfl⟩ := List.length_eq_one_iff.1 hbelow
    exact ⟨rfl, rfl⟩

/-- Rearranges the cells on top of the stack. -/
def shuffle (form : Shuffle) : Track Unit := do
  let cells ← pop form.taken
  match form.apply cells with
  | some cells => modify fun s => { s with frame := s.frame.pushAll cells.reverse }
  | none => breakdown

theorem abreast_shuffle {form : Shuffle} {upper lower : List JType}
    (hupper : (cellsOfAll upper).length = form.upper)
    (hlower : (cellsOfAll lower).length = form.lower) :
    Abreast (Paired c (upper ++ lower) 0) (shuffle form) (shuffle form)
      fun _ _ => Paired c [] (cellsOfAll (upper ++ lower)).length := by
  obtain ⟨happly, hlength⟩ := apply_append form hupper hlower
  rw [← cellsOfAll_append] at happly hlength
  intro s s' b u hpaired hrun
  have husable := hpaired.usable
  rw [← List.append_nil (upper ++ lower)] at hpaired
  obtain ⟨cells, s₁, h₁, h₂⟩ := bind_ok.1 hrun
  obtain ⟨cells', s₁', h₁', ⟨suiting, rfl, rfl, hvalues⟩, hrest⟩ :=
    abreast_pop [] 0 hlength s s' cells s₁ hpaired h₁
  -- the values in the second state have the same sizes
  obtain ⟨upper', lower', rfl, hupper', hlower'⟩ : ∃ upper' lower', suiting = upper' ++ lower' ∧
      List.Forall₂ (ValueSuits c.owner) upper upper' ∧
      List.Forall₂ (ValueSuits c.owner) lower lower' :=
    ⟨_, _, (List.take_append_drop _ suiting).symm,
      (List.forall₂_take_append _ _ _ hvalues.flip).flip,
      (List.forall₂_drop_append _ _ _ hvalues.flip).flip⟩
  obtain ⟨happly', -⟩ := apply_append form
    ((length_cellsOfAll_eq hupper').trans hupper) ((length_cellsOfAll_eq hlower').trans hlower)
  rw [← cellsOfAll_append] at happly'
  rw [happly] at h₂
  cases h₂
  refine ⟨(), _, bind_ok.2 ⟨_, s₁', h₁', by rw [happly']; rfl⟩, ?_⟩
  rw [Nat.zero_add, ← hlength] at hrest
  simp only [Frame.pushAll, List.reverse_reverse]
  refine hrest.setStack fun rest gs hbelow => ?_
  split
  · rw [← cellsOfAll_append, ← cellsOfAll_append]
    exact hbelow.pushAll (List.rel_append hlower' hupper') fun t ht =>
      husable t (List.mem_append.2 (List.mem_append.1 ht).symm)
  · rw [← cellsOfAll_append, ← cellsOfAll_append]
    refine hbelow.pushAll (List.rel_append (List.rel_append hupper' hlower') hupper') fun t ht => ?_
    rcases List.mem_append.1 ht with ht | ht
    · exact husable t ht
    · exact husable t (List.mem_append_left _ ht)

/-- Pushing what an option holds. -/
theorem abreast_pushSome {α : Type} {fault : TrackFault} {o : Option α} {f : α → JType}
    (h : ∀ a, o = some a → f a ≠ .top) :
    Abreast (Paired c [] taken) (orRefuse fault o >>= fun a => push (f a))
      (orRefuse fault o >>= fun a => push (f a)) fun _ _ => Paired c [] taken := by
  cases o with
  | none => exact Abreast.bind (Q := fun _ _ _ _ => False) .refuse fun _ _ _ _ _ _ h => h.elim
  | some a => exact abreast_push (.refl _ _) (h a rfl)

/-- The type of an element of an array of references. -/
def loaded (array : JType) : JType :=
  match array with
  | .array _ => array.elementType
  | .null => .null
  | _ => .anyObject

theorem size_of_isReference {t : JType} (h : t.isReference) : t.size = 1 ∧ t ≠ .top := by
  cases t with
  | array _ | object _ | null | uninitialized _ _ => exact ⟨rfl, JType.noConfusion⟩
  | _ => cases h

/-- An element of an array that does as well as one holding references does as well. -/
theorem loaded_suits {owner : String} {t g : JType} (hheld : t.holdsReferences)
    (hsuits : t.Suits owner g) : ValueSuits owner (loaded t) (loaded g) ∧ loaded t ≠ .top := by
  have href : (loaded t).isReference := by
    cases t with
    | array component => exact hheld
    | null => rfl
    | _ => cases hheld
  have ht := size_of_isReference href
  have hone {u : JType} (hu : u.size = 1) (hsuits : (loaded t).Suits owner u) :
      ValueSuits owner (loaded t) u :=
    ⟨fun h => absurd (ht.1.symm.trans h) (by decide), fun _ => by rw [hu]; decide, hsuits⟩
  refine ⟨?_, ht.2⟩
  cases g with
  | array component =>
    -- the same array
    have hsettled : t.settled owner = t := by
      cases t with
      | uninitialized _ _ => cases hheld
      | _ => rfl
    have heq := hsuits (by rw [hsettled]; exact hheld) rfl
    rw [hsettled] at heq
    subst heq
    exact .refl owner _
  | null => exact hone rfl (JType.suits_of_isArray rfl)
  | _ => exact hone rfl (JType.suits_anyObject owner _)

theorem abreast_arrayLoad {index array : JType} (hindex : SlotKind.int.holds index)
    (hheld : array.holdsReferences) :
    Abreast (Paired c [index, array] 0)
      (pop 1 >>= fun _ => popValue >>= fun array => push (loaded array))
      (pop 1 >>= fun _ => popValue >>= fun array => push (loaded array))
      fun _ _ => Paired c [] (cellsOfAll [index, array]).length := by
  have hcells : (Frame.cellsOf index).length = 1 := SlotKind.length_cellsOf hindex
  have hpop := @abreast_pop c [index] [array] 0 1 (by simpa using hcells)
  refine hpop.bind fun cells cells' => ?_
  refine Abreast.bind (fun s s' a u h => abreast_popValue s s' a u h.2) fun a a' s s' b u h => ?_
  obtain ⟨⟨rfl, ha'⟩, hpaired⟩ := h
  obtain ⟨hv, htop⟩ := loaded_suits hheld ha'.suits
  have htotal : 0 + 1 + (Frame.cellsOf a).length = (cellsOfAll [index, a]).length := by
    simp [hcells]
  rw [← htotal]
  exact abreast_push hv htop s s' b u hpaired

/-- A value loaded from a slot that does as well. -/
theorem loadedRef_suits {owner : String} {t g : JType} (href : t.isReference)
    (hsuits : t.Suits owner g) :
    ValueSuits owner t (if g.isReference then g else .anyObject) := by
  have ht := (size_of_isReference href).1
  refine ⟨fun h => absurd (ht.symm.trans h) (by decide), fun _ => ?_, ?_⟩
  · split
    · next hg =>
      rw [(size_of_isReference hg).1]
      decide
    · decide
  · split
    · exact hsuits
    · exact JType.suits_anyObject owner t

/-- **An instruction runs abreast** in two states that are in relation. -/
theorem abreast_perform (hapart : c.Apart) {insn : Instruction}
    (hfield : insn.FieldVerified) (hslot : insn.SlotVerified c.start)
    (htouched : ∀ slot width, insn.slotAccess? = some (slot, width) → c.touched slot)
    (htakes : insn.Takes values) (i j : Nat) :
    Abreast (fun s s' => s.frame = c.start ∧ Paired c values 0 s s') (perform c.owner insn i)
      (perform c.owner (insn.reslot c.place) j)
      fun _ _ => Paired c [] (cellsOfAll values).length := by
  have hkinds := htakes.kinds
  unfold Instruction.Kinds at hkinds
  -- only a load looks at the frame, and its first action does not change it
  have forget {x y : Track Unit} (h : Abreast (Paired c values 0) x y
      fun _ _ => Paired c [] (cellsOfAll values).length) :
      Abreast (fun s s' => s.frame = c.start ∧ Paired c values 0 s s') x y
        fun _ _ => Paired c [] (cellsOfAll values).length :=
    fun s s' b u hP => h s s' b u hP.2
  have hone {kind : SlotKind}
      (h : List.Forall₂ (fun kind t => SlotKind.holds kind t) [kind] values) :
      ∃ t, values = [t] := by
    cases h with
    | cons hhead hnil =>
      cases hnil
      exact ⟨_, rfl⟩
  unfold perform
  rw [Instruction.opcode_reslot]
  cases hop : insn.opcode
  all_goals
    rw [hop] at hkinds
    dsimp only at hkinds ⊢
  -- the operands can be read off the opcode, calls, fields and arrays in arrays apart
  all_goals
    try rw [Instruction.operands_eq (by rw [hop]; exact fun _ => Opcode.noConfusion)
      (by rw [hop]; exact fun _ => Opcode.noConfusion) (by rw [hop]; exact Opcode.noConfusion),
      hop] at hkinds
  case marker | nop | goto | gotoWide | returnVoid =>
    cases hkinds
    exact forget (.pure fun _ _ h => h)
  case aconstNull | iconst | lconst | fconst | dconst | bipush | sipush =>
    cases hkinds
    exact forget (abreast_push (.refl _ _) JType.noConfusion)
  case ret =>
    cases hkinds
    cases insn with
    | slot op index => exact forget abreast_read
    | _ => exact .breakdown
  case jsr | jsrWide =>
    cases hkinds
    exact forget abreast_pushTop
  case unassigned => exact .refuse
  case arith op kind =>
    exact forget (abreast_popPush ((SlotKind.length_cellsOfAll hkinds).trans
      (by cases kind <;> rfl)) (by cases kind <;> exact JType.noConfusion))
  case shift op wide | bitwise op wide =>
    exact forget (abreast_popPush ((SlotKind.length_cellsOfAll hkinds).trans
      (by cases wide <;> rfl)) (by cases wide <;> exact JType.noConfusion))
  case lcmp | fcmp | dcmp | arrayLength | instanceOf =>
    exact forget (abreast_popPush (SlotKind.length_cellsOfAll hkinds) JType.noConfusion)
  case ifZero | ifInt | ifRef | ifNull | ifNonNull | tableSwitch | lookupSwitch | athrow
      | monitorEnter | monitorExit =>
    exact forget (abreast_drop (SlotKind.length_cellsOfAll hkinds))
  case pop | pop2 => exact forget (abreast_drop hkinds)
  case arrayStore kind =>
    cases kind with
    | _ => exact forget (abreast_drop (SlotKind.length_cellsOfAll hkinds))
  case shuffle form =>
    obtain ⟨upper, lower, rfl, hupper, hlower⟩ := hkinds
    exact forget (abreast_shuffle hupper hlower)
  case neg kind =>
    obtain ⟨t, rfl⟩ := hone hkinds
    exact forget (abreast_replaceTop rfl (fun _ h => h) (htakes.usable t List.mem_cons_self))
  case convert conversion =>
    obtain ⟨t, rfl⟩ := hone hkinds
    exact forget (abreast_replaceTop rfl (fun _ _ => .refl _ _)
      (by cases conversion <;> exact JType.noConfusion))
  case returnValue kind =>
    obtain ⟨t, rfl⟩ := hone hkinds
    refine forget (abreast_popValue.bind fun a a' => .pure fun s s' h => ?_)
    rw [cellsOfAll_cons, cellsOfAll_nil, List.append_nil, ← Nat.zero_add (Frame.cellsOf t).length]
    exact h.2
  case arrayLoad kind =>
    cases kind with
    | ref =>
      obtain ⟨index, array, rfl, hheld⟩ := htakes.array hop
      cases hkinds with
      | cons hindex _ => exact forget (abreast_arrayLoad hindex hheld)
    | _ =>
      exact forget (abreast_popPush (SlotKind.length_cellsOfAll hkinds) JType.noConfusion)
  case ldc =>
    cases hkinds
    cases insn with
    | ldc constant =>
      refine forget (abreast_pushSome fun t ht => ?_)
      cases constant with
      | missing => cases ht
      | _ =>
        obtain rfl := Option.some.inj ht
        exact JType.noConfusion
    | _ => exact .breakdown
  case load kind =>
    cases hkinds
    cases insn with
    | slot op index =>
      obtain rfl : op = .load kind := hop
      have hindex := htouched index kind.size rfl
      refine Abreast.bind (Q := fun _ _ s s' => s.frame = c.start ∧ Paired c [] 0 s s')
        (fun s s' a u hP hrun => ?_) fun _ _ => ?_
      · obtain ⟨a', u', hrun', hpaired⟩ := abreast_read s s' a u hP.2 hrun
        cases hrun
        exact ⟨a', u', hrun', hP.1, hpaired⟩
      · cases kind with
        | ref =>
          refine Abreast.bind .get fun s s' u u' b v h => ?_
          obtain ⟨rfl, rfl, hstart, hpaired⟩ := h
          have hsuits := hpaired.slots index hindex
          -- the load was verified at the frame it started from, which is still the current one
          have href : (s.frame.slot index).isReference := by
            rw [hstart]
            exact hslot
          rw [if_pos href]
          exact abreast_push (loadedRef_suits href hsuits) (size_of_isReference href).2 s s' b v
            hpaired
        | _ => exact forget (abreast_push (.refl _ _) JType.noConfusion)
    | _ => exact .breakdown
  case store kind =>
    obtain ⟨t, rfl⟩ := hone hkinds
    cases insn with
    | slot op index =>
      obtain rfl : op = .store kind := hop
      have hindex := htouched index kind.size rfl
      refine forget (abreast_popValue.bind fun a a' s s' b u h => ?_)
      obtain ⟨⟨rfl, ha'⟩, hpaired⟩ := h
      rw [cellsOfAll_cons, cellsOfAll_nil, List.append_nil]
      rw [Nat.zero_add] at hpaired
      cases kind with
      | ref => exact abreast_write hapart hindex ha'.suits s s' b u hpaired
      | _ => exact abreast_write hapart hindex (.refl _ _) s s' b u hpaired
    | _ => exact .breakdown
  case iinc =>
    cases hkinds
    cases insn with
    | iinc index amount =>
      exact forget (abreast_read.bind fun _ _ => abreast_write hapart (htouched index 1 rfl)
        (.refl _ _))
    | _ => exact .breakdown
  case field op =>
    cases insn with
    | field op' owner name descriptor =>
      obtain rfl : op' = .field op := hop
      refine forget (abreast_access hfield fun t ht => ?_)
      simpa only [Instruction.operands, ht] using hkinds
    | _ => exact .breakdown
  case invoke op =>
    cases insn with
    | method op' owner name descriptor onInterface =>
      obtain rfl : op' = .invoke op := hop
      refine forget (abreast_call fun signature hsignature => ?_)
      simpa only [Instruction.operands, hsignature] using hkinds
    | _ => exact .breakdown
  case new =>
    cases hkinds
    cases insn with
    | type op name =>
      -- the objects are created at different offsets, but become of the same class
      have hsuits : ValueSuits c.owner (.uninitialized name i) (.uninitialized name j) := by
        refine ⟨nofun, fun h => h, fun _ _ => ?_⟩
        have hi : ¬ (i : Int) < 0 := by omega
        have hj : ¬ (j : Int) < 0 := by omega
        simp only [JType.settled, initialized, if_neg hi, if_neg hj]
      exact forget (abreast_push hsuits JType.noConfusion)
    | _ => exact .breakdown
  case newArray =>
    have hlength := SlotKind.length_cellsOfAll hkinds
    refine forget (hlength ▸ abreast_popThen hlength fun _ _ => ?_)
    cases insn with
    | int op code => exact abreast_pushSome fun _ _ => JType.noConfusion
    | _ => exact .breakdown
  case newObjectArray =>
    have hlength := SlotKind.length_cellsOfAll hkinds
    refine forget (hlength ▸ abreast_popThen hlength fun _ _ => ?_)
    cases insn with
    | type op name => exact abreast_push (.refl _ _) JType.noConfusion
    | _ => exact .breakdown
  case checkCast =>
    have hlength := SlotKind.length_cellsOfAll hkinds
    refine forget (hlength ▸ abreast_popThen hlength fun _ _ => ?_)
    cases insn with
    | type op name => exact abreast_push (.refl _ _) (ofClassName_usable name)
    | _ => exact .breakdown
  case multiArray =>
    cases insn with
    | multiArray descriptor dims =>
      have hlength : (cellsOfAll values).length = dims.toNat :=
        (SlotKind.length_cellsOfAll hkinds).trans (SlotKind.total_replicate _)
      dsimp only [Instruction.reslot]
      split
      · exact .breakdown
      · refine forget ?_
        rw [hlength]
        refine abreast_popThen hlength fun _ _ => ?_
        split
        · exact .refuse
        · next t ht => exact abreast_push (.refl _ _) (parse_usable ht).1
    | _ => exact .breakdown

/-- What is known after an instruction was executed on two frames, of which the second does as well
as the first above the cells `base`. -/
structure Outcome (c : Setting) (after after' : Frame) (effect : Effect) (asked : Nat) : Prop where
  stack : ∃ upper base, after.stack = upper ++ base ∧
    List.Forall₂ (JType.Eases c.owner) base c.base ∧
    StackSuits c.owner false upper after'.stack
  slots : ∀ slot, c.touched slot →
    (after.slot slot).Suits c.owner (after'.slot (c.place slot))
  kept : ∀ slot, (∃ a ∈ effect.writes, a.slot = slot) ∨
    (after.slot slot).Eases c.owner (c.start.slot slot)
  asked : asked ≤ effect.pops

/-- **An instruction executed on a frame can be executed on one that does as well.** -/
theorem execute_outcome (hapart : c.Apart) {insn : Instruction}
    (hverified : insn.Verified c.start)
    (htouched : ∀ slot width, insn.slotAccess? = some (slot, width) → c.touched slot)
    (htakes : insn.Takes values) {rest : List JType}
    (hstack : c.start.stack = cellsOfAll values ++ rest ++ c.base) {f after : Frame}
    (hsuits : StackSuits c.owner false (cellsOfAll values ++ rest) f.stack)
    (hslots : ∀ slot, c.touched slot → (c.start.slot slot).Suits c.owner (f.slot (c.place slot)))
    {i : Nat} {effect : Effect} (hexec : execute c.owner c.start insn i = (after, .ok effect))
    (j : Nat) :
    ∃ after' effect', execute c.owner f (insn.reslot c.place) j = (after', .ok effect') ∧
      Outcome c after after' effect (cellsOfAll values).length := by
  obtain ⟨u, hrun, rfl, rfl⟩ := execute_ok hexec
  have hpaired : Paired c values 0 ⟨c.start, c.start.depth, [], []⟩ ⟨f, f.depth, [], []⟩ :=
    ⟨⟨rest, c.base, hstack, ⟨List.forall₂_same.2 fun t _ => .refl _ t, fun _ => .inr (.refl _ _)⟩,
      hsuits⟩, htakes.usable, hslots, Nat.le_refl _, fun _ => Nat.le_refl _⟩
  obtain ⟨⟨⟩, u', hrun', ⟨upper, base, hstack', hspares, hsuits'⟩, -, hslots', hlow, -⟩ :=
    abreast_perform hapart hverified.field hverified.slot htouched htakes i j _ _ _ _
      ⟨rfl, hpaired⟩ hrun
  refine ⟨u'.frame, _, by rw [execute, hrun'], ⟨upper, base, hstack', hspares.base, hsuits'⟩,
    hslots', hspares.slots, ?_⟩
  dsimp only
  omega

end Tracker

end Outliner
