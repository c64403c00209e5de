import Outliner.Tracker

/-!
# What the tracker does to a frame

The tracker executes an instruction as a program over a frame. A program that succeeds is taken
apart by `Tracker.bind_ok`, and an instruction that succeeds is such a program
(`Tracker.execute_ok`).

The stack never sinks below the lowest depth that is noted on the way, and a frame never grows by
much (`Tracker.Floats`). So an instruction leaves at least the cells it does not pop
(`Tracker.depth_sub_pops_le`), and adds at most six cells and slots (`Tracker.extent_le`).
-/

namespace Outliner

namespace Tracker

variable {α β : Type} {x : Track α}

theorem bind_ok {g : α → Track β} {s s' : State} {b : β} :
    (x >>= g).run s = .ok b s' ↔ ∃ a s₁, x.run s = .ok a s₁ ∧ (g a).run s₁ = .ok b s' := by
  change EStateM.bind x g s = _ ↔ ∃ a s₁, x s = .ok a s₁ ∧ g a s₁ = _
  unfold EStateM.bind
  cases x s with
  | ok a s₁ =>
    refine ⟨fun h => ⟨a, s₁, rfl, h⟩, ?_⟩
    rintro ⟨a', s₂, h, h'⟩
    cases h
    exact h'
  | error e s₁ =>
    refine ⟨nofun, ?_⟩
    rintro ⟨a', s₂, h, -⟩
    cases h

theorem execute_ok {owner : String} {insn : Instruction} {offset : Int} {f after : Frame}
    {effect : Effect} (h : execute owner f insn offset = (after, .ok effect)) :
    ∃ s', (perform owner insn offset).run ⟨f, f.depth, [], []⟩ = .ok () s' ∧ after = s'.frame ∧
      effect = ⟨f.depth - s'.low, s'.frame.depth - s'.low, s'.reads, s'.writes⟩ := by
  unfold execute at h
  split at h
  · next s hrun =>
    cases h
    exact ⟨s, hrun, rfl, rfl⟩
  · cases h

/-! ### Depths and extents -/

end Tracker

namespace SlotMap

theorem length_insertIn_le {α : Type} (slot : Int) (a : α) (l : List (Int × α)) :
    (insertIn slot a l).length ≤ l.length + 1 := by
  induction l with
  | nil => exact Nat.le_refl _
  | cons e rest ih =>
    unfold insertIn
    split
    · exact Nat.le_refl _
    · split
      · exact Nat.le_succ _
      · exact Nat.succ_le_succ ih

theorem size_insert_le {α : Type} (m : SlotMap α) (slot : Int) (a : α) :
    (m.insert slot a).size ≤ m.size + 1 :=
  length_insertIn_le slot a m.entries

end SlotMap

namespace Frame

/-- The number of cells and of set slots. -/
def extent (f : Frame) : Nat := f.depth + f.locals.size

theorem length_cellsOf_le (t : JType) : (cellsOf t).length ≤ 2 := by
  unfold cellsOf
  split
  · exact Nat.le_refl _
  · exact Nat.le_succ _

theorem extent_push_le (f : Frame) (t : JType) : (f.push t).extent ≤ f.extent + 2 := by
  have hcells := length_cellsOf_le t
  simp only [extent, push, depth, List.length_append]
  omega

/-- A store sets the slots of the value, and may unset the one before. -/
theorem extent_setSlot_le (f : Frame) (index : Int) (t : JType) :
    (f.setSlot index t).extent ≤ f.extent + 3 := by
  have hset (m : SlotMap JType) (hm : m.size ≤ f.locals.size + 1) :
      (if t.size = 2 then (m.insert index t).insert (Word.wrap (index + 1)) .top
        else m.insert index t).size ≤ f.locals.size + 3 := by
    have hinsert := SlotMap.size_insert_le m index t
    have hnext := SlotMap.size_insert_le (m.insert index t) (Word.wrap (index + 1)) .top
    split <;> omega
  unfold setSlot extent
  refine Nat.add_le_add_left (hset _ ?_) f.depth
  split
  · split
    · exact SlotMap.size_insert_le _ _ _
    · exact Nat.le_succ _
  · exact Nat.le_succ _

theorem extent_replace (f : Frame) (old new : JType) :
    (f.replace old new).extent = f.extent := by
  simp [extent, replace, depth, SlotMap.size, SlotMap.mapWithSlot]

end Frame

namespace Tracker

variable {α β : Type} {x : Track α} {slots : Int → Prop} {m n : Nat}

/-- What is worked on never sinks below the lowest depth that was noted, grows by at most `n` cells
and slots, and only the given slots are written. -/
def Floats (slots : Int → Prop) (n : Nat) (x : Track α) : Prop :=
  ∀ s a s', x.run s = .ok a s' → s.low ≤ s.frame.depth →
    (s'.low ≤ s'.frame.depth ∧ s'.low ≤ s.low ∧ s'.frame.extent ≤ s.frame.extent + n) ∧
      ∀ w ∈ s'.writes, w ∈ s.writes ∨ slots w.slot

/-- Pushes the result of a call, if it has one. -/
def pushResult : JType → Track Unit
  | .void => pure ()
  | t => push t.computational

namespace Floats

theorem mono (hx : Floats slots m x) (hle : m ≤ n) : Floats slots n x := by
  intro s a s' h hlow
  obtain ⟨⟨hlow', hle', hextent⟩, hwrites⟩ := hx s a s' h hlow
  exact ⟨⟨hlow', hle', Nat.le_trans hextent (Nat.add_le_add_left hle _)⟩, hwrites⟩

protected theorem pure (a : α) : Floats slots 0 (pure a) := by
  rintro s b s' h hlow
  cases h
  exact ⟨⟨hlow, Nat.le_refl _, Nat.le_refl _⟩, fun _ => .inl⟩

/-- Everything but the last action takes cells off or looks at them. -/
protected theorem bind {g : α → Track β} (hx : Floats slots 0 x) (hg : ∀ a, Floats slots n (g a)) :
    Floats slots n (x >>= g) := by
  intro s b s' h hlow
  obtain ⟨a, s₁, h₁, h₂⟩ := bind_ok.1 h
  obtain ⟨⟨hlow₁, hle₁, hextent₁⟩, hwrites₁⟩ := hx s a s₁ h₁ hlow
  obtain ⟨⟨hlow₂, hle₂, hextent₂⟩, hwrites₂⟩ := hg a s₁ b s' h₂ hlow₁
  refine ⟨⟨hlow₂, Nat.le_trans hle₂ hle₁, by omega⟩, fun w hw => ?_⟩
  rcases hwrites₂ w hw with hw | hw
  · exact hwrites₁ w hw
  · exact .inr hw

theorem refuse (fault : TrackFault) : Floats slots 0 (Tracker.refuse fault : Track α) := nofun

theorem breakdown : Floats slots 0 (Tracker.breakdown : Track α) := nofun

theorem orRefuse (fault : TrackFault) (o : Option α) :
    Floats slots 0 (Tracker.orRefuse fault o) := by
  cases o with
  | none => exact refuse fault
  | some a => exact .pure a

/-- A change that takes no cell off. -/
theorem modify {g : State → State} (hlow : ∀ s, (g s).low = s.low)
    (hdepth : ∀ s, s.frame.depth ≤ (g s).frame.depth)
    (hextent : ∀ s, (g s).frame.extent ≤ s.frame.extent + n)
    (hwrites : ∀ s, ∀ w ∈ (g s).writes, w ∈ s.writes ∨ slots w.slot) :
    Floats slots n (modify g) := by
  rintro s a s' h hle
  cases h
  rw [hlow]
  exact ⟨⟨Nat.le_trans hle (hdepth s), Nat.le_refl _, hextent s⟩, hwrites s⟩

theorem push (t : JType) : Floats slots 2 (Tracker.push t) :=
  modify (fun _ => rfl) (fun s => by simp [Frame.push, Frame.depth])
    (fun s => s.frame.extent_push_le t) fun _ _ => .inl

theorem read (slot : Int) (size : Nat) : Floats slots 0 (Tracker.read slot size) :=
  modify (fun _ => rfl) (fun _ => Nat.le_refl _) (fun _ => Nat.le_refl _) fun _ _ => .inl

theorem write {slot : Int} (hslot : slots slot) (t : JType) :
    Floats slots 3 (Tracker.write slot t) :=
  modify (fun _ => rfl) (fun _ => Nat.le_refl _) (fun s => s.frame.extent_setSlot_le slot t)
    fun s w hw => (List.mem_append.1 hw).imp_right fun hw => by
      rw [List.mem_singleton.1 hw]
      exact hslot

theorem pop (n : Nat) : Floats slots 0 (Tracker.pop n) := by
  rintro s cells s' h -
  obtain ⟨s₁, s₂, h₁, h₂⟩ := bind_ok.1 h
  cases h₁
  split at h₂
  · cases h₂
  · next cells' f hpop =>
    cases h₂
    refine ⟨⟨Nat.min_le_right _ _, Nat.min_le_left _ _, ?_⟩, fun _ => .inl⟩
    unfold Frame.popN? at hpop
    split at hpop
    · cases hpop
      simp [Frame.extent, Frame.depth]
    · cases hpop

theorem popValue : Floats slots 0 Tracker.popValue := by
  rintro s t s' h -
  obtain ⟨s₁, s₂, h₁, h₂⟩ := bind_ok.1 h
  cases h₁
  split at h₂
  · cases h₂
  · next t' f hpop =>
    cases h₂
    refine ⟨⟨Nat.min_le_right _ _, Nat.min_le_left _ _, ?_⟩, fun _ => .inl⟩
    have hle : f.stack.length ≤ s.frame.stack.length ∧ f.locals = s.frame.locals := by
      unfold Frame.pop? at hpop
      split at hpop
      · cases hpop
      · next hstack =>
        split at hpop <;> cases hpop <;> simp [hstack]
        omega
      · next hstack =>
        cases hpop
        simp [hstack]
    simp only [Frame.extent, Frame.depth, hle.2]
    omega

theorem popPush (n : Nat) (t : JType) : Floats slots 2 (Tracker.popPush n t) :=
  (pop n).bind fun _ => push t

/-- Taking cells off and leaving it at that. -/
theorem drop (n : Nat) : Floats slots 0 (Tracker.pop n >>= fun _ => pure ()) :=
  (pop n).bind fun _ => .pure ()

theorem access (op : FieldOp) (descriptor : String) :
    Floats slots 2 (Tracker.access op descriptor) := by
  unfold Tracker.access
  split
  · exact (refuse _).mono (by decide)
  · cases op with
    | getStatic => exact push _
    | putStatic => exact (drop _).mono (by decide)
    | getField => exact popValue.bind fun _ => push _
    | putField => exact (drop _).mono (by decide)

theorem call (owner : String) (op : InvokeOp) (name descriptor : String) :
    Floats slots 2 (Tracker.call owner op name descriptor) := by
  unfold Tracker.call
  split
  · exact (refuse _).mono (by decide)
  · next signature _ =>
    -- the result takes two cells at most, and everything else only takes cells off
    have hresult : Floats slots 2 (pushResult signature.result) := by
      unfold pushResult
      split
      · exact (Floats.pure ()).mono (by decide)
      · exact push _
    refine (pop _).bind fun _ => ?_
    cases op with
    | static | dynamic => exact hresult
    | «virtual» | interface => exact popValue.bind fun _ => hresult
    | special =>
      refine popValue.bind fun receiver => ?_
      cases receiver with
      | uninitialized className site =>
        dsimp only
        split
        · exact Floats.bind (modify (fun _ => rfl) (fun s => by simp [Frame.replace, Frame.depth])
            (fun s => Nat.le_of_eq (s.frame.extent_replace _ _)) fun _ _ => .inl) fun _ => hresult
        · exact hresult
      | _ => exact hresult

end Floats

theorem length_apply_le (form : Shuffle) (cells out : List JType)
    (h : form.apply cells = some out) : out.length ≤ 6 := by
  unfold Shuffle.apply at h
  split at h <;> cases h <;> simp

/-- **No instruction sinks below the lowest depth it notes**, none adds more than six cells and
slots, and none writes a slot that it does not name. -/
theorem floats_perform (owner : String) (insn : Instruction) (offset : Int) :
    Floats (fun slot => ∃ width, insn.slotAccess? = some (slot, width)) 6
      (perform owner insn offset) := by
  have look {slots : Int → Prop} {g : State → Track Unit} (hg : ∀ s, Floats slots 2 (g s)) :
      Floats slots 2 (get >>= g) :=
    Floats.bind (x := get)
      (fun s a s' h hlow => by
        cases h
        exact ⟨⟨hlow, Nat.le_refl _, Nat.le_refl _⟩, fun _ => .inl⟩) hg
  unfold perform
  split
  -- first what does not look at the form of the instruction
  all_goals first
    | exact (Floats.pure ()).mono (by decide)
    | exact (Floats.push _).mono (by decide)
    | exact (Floats.popPush _ _).mono (by decide)
    | exact (Floats.drop _).mono (by decide)
    | exact (Floats.refuse _).mono (by decide)
    | exact (Floats.popValue.bind fun _ => .pure ()).mono (by decide)
    | exact (Floats.popValue.bind fun _ => .push _).mono (by decide)
    | skip
  · split
    · exact ((Floats.orRefuse _ _).bind fun _ => .push _).mono (by decide)
    · exact Floats.breakdown.mono (by decide)
  · split
    · refine (Floats.read _ _).bind fun _ => ?_
      split
      · exact (look fun _ => .push _).mono (by decide)
      · exact (Floats.push _).mono (by decide)
    · exact Floats.breakdown.mono (by decide)
  · next kind hop =>
    split
    · next op index =>
      obtain rfl : op = .store kind := hop
      refine Floats.popValue.bind fun _ => ?_
      split <;> exact (Floats.write ⟨_, rfl⟩ _).mono (by decide)
    · exact Floats.breakdown.mono (by decide)
  · split
    · exact ((Floats.read _ _).bind fun _ => .write ⟨_, rfl⟩ _).mono (by decide)
    · exact Floats.breakdown.mono (by decide)
  · split
    · exact (Floats.read _ _).mono (by decide)
    · exact Floats.breakdown.mono (by decide)
  · exact ((Floats.pop 1).bind fun _ => Floats.popValue.bind fun _ => .push _).mono (by decide)
  · refine (Floats.pop _).bind fun cells => ?_
    split
    · next form _ _ out hout =>
      have hlength := length_apply_le _ _ _ hout
      refine .modify (fun _ => rfl) (fun _ => by simp [Frame.pushAll, Frame.depth]) (fun s => ?_)
        fun _ _ => .inl
      simp only [Frame.extent, Frame.pushAll, Frame.depth, List.reverse_reverse,
        List.length_append]
      omega
    · exact Floats.breakdown.mono (by decide)
  · split
    · exact (Floats.access _ _).mono (by decide)
    · exact Floats.breakdown.mono (by decide)
  · split
    · exact (Floats.call _ _ _ _).mono (by decide)
    · exact Floats.breakdown.mono (by decide)
  · split
    · exact (Floats.push _).mono (by decide)
    · exact Floats.breakdown.mono (by decide)
  · refine (Floats.pop 1).bind fun _ => ?_
    split
    · exact ((Floats.orRefuse _ _).bind fun _ => .push _).mono (by decide)
    · exact Floats.breakdown.mono (by decide)
  · refine (Floats.pop 1).bind fun _ => ?_
    split
    · exact (Floats.push _).mono (by decide)
    · exact Floats.breakdown.mono (by decide)
  · split
    · split
      · exact Floats.breakdown.mono (by decide)
      · refine (Floats.pop _).bind fun _ => ?_
        split
        · exact (Floats.refuse _).mono (by decide)
        · exact (Floats.push _).mono (by decide)
    · exact Floats.breakdown.mono (by decide)
  · refine (Floats.pop 1).bind fun _ => ?_
    split
    · exact (Floats.push _).mono (by decide)
    · exact Floats.breakdown.mono (by decide)

section

variable {owner : String} {insn : Instruction} {offset : Int} {f after : Frame} {effect : Effect}

/-- An instruction leaves at least the cells it does not pop. -/
theorem depth_sub_pops_le (h : execute owner f insn offset = (after, .ok effect)) :
    f.depth - effect.pops ≤ after.depth := by
  obtain ⟨s', hrun, rfl, rfl⟩ := execute_ok h
  obtain ⟨⟨hlow, hle, -⟩, -⟩ := floats_perform owner insn offset _ _ _ hrun (Nat.le_refl _)
  dsimp only at hle ⊢
  omega

/-- An instruction adds at most six cells and slots. -/
theorem extent_le (h : execute owner f insn offset = (after, .ok effect)) :
    after.extent ≤ f.extent + 6 := by
  obtain ⟨s', hrun, rfl, -⟩ := execute_ok h
  exact (floats_perform owner insn offset _ _ _ hrun (Nat.le_refl _)).1.2.2

/-- An instruction writes only the slot that it names. -/
theorem slotAccess?_of_mem_writes (h : execute owner f insn offset = (after, .ok effect))
    {w : SlotAccess} (hw : w ∈ effect.writes) :
    ∃ width, insn.slotAccess? = some (w.slot, width) := by
  obtain ⟨s', hrun, -, rfl⟩ := execute_ok h
  exact ((floats_perform owner insn offset _ _ _ hrun (Nat.le_refl _)).2 w hw).resolve_left
    (List.not_mem_nil)

end

end Tracker

end Outliner
