import Outliner.Proofs.Reached

/-!
# Events are nested as the calls are

An observer is told of calls, steps and returns, each with a depth, but not of the exceptions that
end activations. The events are nested all the same: a return belongs to the latest call that led
one level deeper than where it returns to, and a step to the latest call that led to its own depth.

* `Machine.events_nested` — this holds of every run, whatever its outcome, as long as the observer
  is told of calls; and in every state of a run each activation has a call that is still open.

The events are read by a machine that only has a stack of names (`Event.Traced`). A call pushes the
name of what is called; a step names the topmost routine and a return takes it off; and at any time
a name can be dropped in silence, which is what an exception does. That a run is read with the names
of its own activations on the stack is the invariant of the run (`Run.Told`). That whatever can be
read is nested is an invariant of the reading (`Event.Traced.nested`): the calls of the names on the
stack are the latest of their depths, and have not been returned from (`Event.Open`).
-/

namespace Outliner

/-! ### Nested events -/

namespace Event

/-- The event tells of a call that leads to a depth. -/
def LeadsTo (d : Nat) : Event → Prop
  | .call _ _ _ depth => depth = d
  | _ => False

/-- The event tells of a return to a depth. -/
def ReturnsTo (d : Nat) : Event → Prop
  | .returned _ _ _ depth => depth = d
  | _ => False

/-- The latest call that leads to a depth is one of a routine, and some events have followed it. -/
def LatestCall (events : List Event) (d : Nat) (routine : String) (since : List Event) : Prop :=
  ∃ before argCount native, events = before ++ .call routine argCount native d :: since ∧
    ∀ e ∈ since, ¬ e.LeadsTo d

/-- The latest call that leads below a depth is one of a routine, which has not returned. -/
def Pending (events : List Event) (d : Nat) (routine : String) : Prop :=
  ∃ since, LatestCall events (d + 1) routine since ∧ ∀ e ∈ since, ¬ e.ReturnsTo d

/-- An event fits the events before it: a step belongs to the latest call that leads to its depth,
and a return to the latest one that leads below its depth, unless that has been returned from. -/
def Suits (before : List Event) : Event → Prop
  | .call _ _ _ _ => True
  | .step routine _ _ _ _ d => ∃ since, LatestCall before d routine since
  | .returned routine _ _ d => Pending before d routine

/-- **Events are nested**: each one fits those before it. -/
def Nested (events : List Event) : Prop :=
  ∀ before e after, events = before ++ e :: after → e.Suits before

/-- **The calls of routines are open**, the innermost one first. -/
def Open (events : List Event) : List String → Prop
  | [] => True
  | routine :: outer => Pending events outer.length routine ∧ Open events outer

variable {events : List Event} {e : Event} {routine : String} {routines : List String} {d : Nat}

theorem Pending.snoc (h : Pending events d routine) (hcall : ¬ e.LeadsTo (d + 1))
    (hreturn : ¬ e.ReturnsTo d) : Pending (events ++ [e]) d routine := by
  obtain ⟨since, ⟨before, argCount, native, rfl, hcalls⟩, hreturns⟩ := h
  refine ⟨since ++ [e], ⟨before, argCount, native, by simp, ?_⟩, ?_⟩
  · exact List.forall_mem_append.2 ⟨hcalls, by simpa using hcall⟩
  · exact List.forall_mem_append.2 ⟨hreturns, by simpa using hreturn⟩

/-- A call is open at once. -/
theorem pending_call (events : List Event) (routine : String) (argCount : Nat) (native : Bool)
    (d : Nat) : Pending (events ++ [.call routine argCount native (d + 1)]) d routine :=
  ⟨[], ⟨events, argCount, native, rfl, List.forall_mem_nil _⟩, List.forall_mem_nil _⟩

/-- Calls stay open when something happens further inside. -/
theorem Open.snoc (h : Open events routines) (hcall : ∀ d < routines.length, ¬ e.LeadsTo (d + 1))
    (hreturn : ∀ d < routines.length, ¬ e.ReturnsTo d) : Open (events ++ [e]) routines := by
  induction routines with
  | nil => trivial
  | cons routine outer ih =>
    have hlt : outer.length < (routine :: outer).length := Nat.lt_succ_self _
    refine ⟨h.1.snoc (hcall _ hlt) (hreturn _ hlt), ih h.2 ?_ ?_⟩
    · exact fun d hd => hcall d (Nat.lt_trans hd hlt)
    · exact fun d hd => hreturn d (Nat.lt_trans hd hlt)

theorem nested_nil : Nested [] := by
  intro before e after h
  simp at h

/-- Nested events stay nested when one is added that fits them. -/
theorem Nested.snoc (h : Nested events) (he : e.Suits events) : Nested (events ++ [e]) := by
  intro before e' after heq
  rcases List.eq_nil_or_concat after with rfl | ⟨after', last, rfl⟩
  · obtain ⟨rfl, hlast⟩ := List.append_inj' heq rfl
    obtain rfl := (List.cons.inj hlast).1
    exact he
  · -- the event stood there before
    rw [List.concat_eq_append, ← List.cons_append, ← List.append_assoc] at heq
    exact h before e' after' (List.append_inj' heq rfl).1

/-! ### Reading events with a stack of names -/

/-- **Events read with a stack of names**, which holds the routines whose calls are open. -/
inductive Traced : List Event → List String → Prop where
  | start : Traced [] []
  | call {events : List Event} {outer : List String} (routine : String) (argCount : Nat)
    (native : Bool) (before : Traced events outer) :
    Traced (events ++ [.call routine argCount native (outer.length + 1)]) (routine :: outer)
  | step {events : List Event} {routine : String} {outer : List String} (offset : Nat)
    (op : Opcode) (line : Int) (stackDepth : Nat) (before : Traced events (routine :: outer)) :
    Traced (events ++ [.step routine offset op line stackDepth (outer.length + 1)])
      (routine :: outer)
  | returned {events : List Event} {routine : String} {outer : List String} (v : Value) (h : Heap)
    (before : Traced events (routine :: outer)) :
    Traced (events ++ [.returned routine v h outer.length]) outer
  /-- Nobody is told of what ends by an exception. -/
  | drop {events : List Event} {routine : String} {outer : List String}
    (before : Traced events (routine :: outer)) : Traced events outer

namespace Traced

/-- **What is read with a stack of names is nested**, and the names are those of the open calls. -/
theorem nested (h : Traced events routines) : Nested events ∧ Open events routines := by
  induction h with
  | start => exact ⟨nested_nil, trivial⟩
  | @call events outer routine argCount native _ ih =>
    refine ⟨ih.1.snoc trivial, pending_call _ _ _ _ _, ih.2.snoc ?_ fun _ _ => id⟩
    -- the call leads deeper than all open ones
    intro d hd heq
    have hdepth : outer.length + 1 = d + 1 := heq
    omega
  | @step events routine outer offset op line stackDepth _ ih =>
    obtain ⟨since, hlatest, -⟩ := ih.2.1
    exact ⟨ih.1.snoc ⟨since, hlatest⟩, ih.2.snoc (fun _ _ => id) fun _ _ => id⟩
  | @returned events routine outer v heap _ ih =>
    refine ⟨ih.1.snoc ih.2.1, ih.2.2.snoc (fun _ _ => id) ?_⟩
    -- the return is to a depth at which only the calls outside it are
    intro d hd heq
    have hdepth : outer.length = d := heq
    omega
  | drop _ ih => exact ⟨ih.1, ih.2.2⟩

/-- Names can be dropped until some are left. -/
theorem of_suffix {kept : List String} (h : Traced events routines) (hkept : kept <:+ routines) :
    Traced events kept := by
  obtain ⟨dropped, rfl⟩ := hkept
  induction dropped with
  | nil => exact h
  | cons routine dropped ih => exact ih h.drop

end Traced

end Event

/-! ### Instructions stay in their routine -/

namespace Exec

variable {α β : Type} {x : Exec α} {f : α → Exec β}

/-- Where a program leaves off, whether it succeeds or not. -/
def workplaceOf : EStateM.Result Halt Workplace α → Workplace
  | .ok _ p | .error _ p => p

/-- A program leaves an activation to its routine. -/
def KeepsRoutine (x : Exec α) : Prop :=
  ∀ s, (workplaceOf (x.run s)).frame.routine = s.frame.routine

namespace KeepsRoutine

theorem of_stays {Q : α → Prop} (h : Stays Q x) : KeepsRoutine x := by
  intro s
  have hs := h s
  generalize x.run s = result at hs
  cases hs with
  | ok routine _ _ => exact routine
  | error routine _ _ => exact routine

protected theorem bind (hx : KeepsRoutine x) (hf : ∀ a, KeepsRoutine (f a)) :
    KeepsRoutine (x >>= f) := by
  intro s
  have hs := hx s
  have hbind : (x >>= f).run s = EStateM.bind x f s := rfl
  rw [hbind, EStateM.bind]
  generalize hresult : x s = result
  rw [EStateM.run, hresult] at hs
  cases result with
  | ok a p => exact (hf a p).trans hs
  | error halt p => exact hs

theorem goToLabel (l : Label) : KeepsRoutine (Exec.goToLabel l) := by
  intro s
  change (workplaceOf ((Exec.require (s.frame.routine.offset? l) >>= goTo).run s)).frame.routine = _
  cases s.frame.routine.offset? l <;> rfl

/-- A part that leaves the instruction pointer alone, after which control goes on. -/
theorem next {Q : α → Prop} (hx : Stays Q x) : KeepsRoutine (x >>= fun _ => pure Progress.next) :=
  (of_stays hx).bind fun _ _ => rfl

end KeepsRoutine

/-- **An instruction is executed in one routine**, also one that returns, calls or is cut short. -/
theorem perform_keepsRoutine (classes : Classes) (insn : Instruction) :
    KeepsRoutine (perform classes insn) := by
  -- all but returns from subroutines, jumps and switches stay where they are
  refine KeepsRoutine.bind (fun _ => rfl) fun _ => ?_
  cases insn with
  | plain op => exact .of_stays (Stays.plain op)
  | int op operand => exact .next (Stays.immediate op operand)
  | slot op index =>
    by_cases hop : op = .ret
    · subst hop
      refine .bind (.bind (.of_stays (Stays.load index)) fun v s => ?_) fun _ _ => rfl
      cases v <;> rfl
    · exact .next (Stays.slotAccess hop index)
  | iinc index amount => exact .next (Stays.increment index amount)
  | ldc c => exact .next (Stays.pushValue _)
  | type op name => exact .next (Stays.classAccess classes op name)
  | field op owner name descriptor => exact .next (Stays.fieldAccess op owner name descriptor)
  | method op owner name descriptor onInterface =>
    exact .bind (.of_stays (Stays.methodCall op owner name descriptor)) fun _ _ => rfl
  | jump op target =>
    refine .bind (.of_stays (Stays.jumpTaken op)) fun taken => ?_
    cases taken with
    | true => exact .bind (.goToLabel target) fun _ _ => rfl
    | false => exact fun _ => rfl
  | tableSwitch low high fallback targets =>
    exact .bind (.of_stays Stays.popInt) fun _ => .bind (.of_stays (Stays.require _)) fun l =>
      .bind (.goToLabel l) fun _ _ => rfl
  | lookupSwitch fallback keys targets =>
    exact .bind (.of_stays Stays.popInt) fun _ => .bind (.of_stays (Stays.require _)) fun l =>
      .bind (.goToLabel l) fun _ _ => rfl
  | multiArray descriptor dims => exact .next (Stays.multiArray descriptor dims)
  | label _ | line _ | frame => exact fun _ => rfl

end Exec

/-! ### Steps -/

namespace Run

/-- The names of the routines that are active, the running one first. -/
def active (frames : List Activation) : List String :=
  frames.map fun a => a.routine.key

/-- **The events of a run are read with the names of its activations.** -/
def Told (s : Run) : Prop :=
  Event.Traced s.events.toList (active s.frames)

variable {w : World} {o : Observer} {s : Run} {a : Activation} {rest : List Activation}

theorem told_ends (hs : s.Told) (ending : Ending) : (s.ends ending).1.Told :=
  hs.of_suffix List.nil_suffix

theorem told_failHere (hs : s.Told) (cause : Cause) : (s.failHere cause).1.Told := by
  unfold failHere
  split <;> exact told_ends hs _

/-- An exception only ends activations. -/
theorem active_suffix_of_unwind {className : String} {exception : Addr}
    {frames frames' : List Activation} (h : unwind w className exception frames = some frames') :
    active frames' <:+ active frames := by
  induction frames with
  | nil => cases h
  | cons a rest ih =>
    unfold unwind at h
    split at h
    · obtain rfl := Option.some.inj h
      exact List.suffix_refl _
    · exact (ih h).trans (List.suffix_cons _ _)

theorem told_raise (hs : s.Told) (exception : Addr) : (s.raise w exception).1.Told := by
  unfold raise
  dsimp only
  split
  · next frames hunwind => exact hs.of_suffix (active_suffix_of_unwind hunwind)
  · exact told_ends hs _

theorem told_deliver (hs : s.Told) (v : Value) (wanted : Bool) : (s.deliver v wanted).Told := by
  unfold deliver
  split
  · next a rest hframes =>
    rw [Told, hframes] at hs
    split
    · exact hs
    · rwa [Told, hframes]
  · exact hs

section Calls

variable (ho : w.observer = some o) (hcalls : o.calls = true)

include ho hcalls

/-- The observer is told of a call before the routine is active. -/
theorem traced_tellCall (hs : s.Told) (routine : String) (argCount : Nat) (native : Bool) :
    Event.Traced (s.tellCall w routine argCount native).1.events.toList
      (routine :: active s.frames) := by
  have hlength : (active s.frames).length = s.frames.length := List.length_map _
  have hcall := Event.Traced.call routine argCount native hs
  simpa [tellCall, ho, hcalls, tell, hlength] using hcall

omit hcalls in
/-- The observer is told of a return when the routine is no longer active. -/
theorem told_tellReturn {routine : String}
    (hs : Event.Traced s.events.toList (routine :: active s.frames)) (v : Value) :
    (s.tellReturn w routine v).1.Told := by
  have hlength : (active s.frames).length = s.frames.length := List.length_map _
  have hreturned := hs.returned v s.heap
  unfold tellReturn
  rw [ho]
  dsimp only
  split
  · simpa [Told, tell, hlength] using hreturned
  · exact hs.drop

omit hcalls in
theorem told_callNative {key : String}
    (hs : Event.Traced s.events.toList (key :: active s.frames)) (n : Native) (args : List Value) :
    (s.callNative w n key args).1.Told := by
  unfold callNative
  dsimp only
  split
  · next v _ =>
    have htold : (({ s with heap := (n s.heap args).1 } : Run).tellReturn w key v).1.Told := by
      refine told_tellReturn ho ?_ v
      exact hs
    split
    all_goals
      next heq =>
      rw [heq] at htold
      exact htold
  all_goals exact hs.drop

theorem told_enter (hs : s.Told) (c : Call) : (s.enter w c).1.Told := by
  unfold enter
  dsimp only
  split
  · exact hs
  split
  · exact hs
  -- whatever is called, its name is on the stack of names before anything is entered
  have htraced (routine : String) (native : Bool) (s' : Run) (proceed : Bool)
      (heq : s.tellCall w routine c.args.length native = (s', proceed)) :
      Event.Traced s'.events.toList (routine :: active s'.frames) := by
    have hframes := s.tellCall_frames w routine c.args.length native
    have hcall := traced_tellCall ho hcalls hs routine c.args.length native
    rw [heq] at hframes hcall
    exact hframes ▸ hcall
  split
  · split
    · next s' heq => exact (htraced _ _ s' _ heq).drop
    · next s' heq => exact told_callNative ho (htraced _ _ s' _ heq) _ _
  · next r _ =>
    split
    · next s' heq => exact (htraced _ _ s' _ heq).drop
    · next s' heq =>
      split
      · exact (htraced _ _ s' _ heq).drop
      · next a ha =>
        -- the new activation takes the place of the name
        have hnew := htraced _ _ s' _ heq
        rw [← (Activation.start_of_enter ha).1] at hnew
        exact hnew

theorem told_call (hs : s.Told) (c : Call) : (s.call w c).1.Told := by
  have henter := told_enter ho hcalls hs c
  unfold call
  generalize s.enter w c = out at henter
  obtain ⟨s', entry⟩ := out
  cases entry with
  | started => exact henter
  | finished v => exact told_deliver henter v c.wantsResult
  | raised exception => exact told_raise henter exception
  | failed cause => exact told_failHere henter cause
  | breakdown => exact told_ends henter _

omit hcalls in
/-- An activation that leaves is no longer among the others, but its call is still open. -/
theorem told_leave (hs : Event.Traced s.events.toList (a.routine.key :: active s.frames))
    (v : Value) : (s.leave w a v).1.Told := by
  have htell := told_tellReturn ho hs v
  unfold leave
  split
  · next s' heq =>
    rw [heq] at htell
    exact told_failHere htell _
  · next s' heq =>
    rw [heq] at htell
    split
    · exact told_ends htell _
    · exact told_deliver htell _ _

theorem told_execute (hframes : s.frames = a :: rest) (hs : s.Told) (insn : Instruction) :
    (s.execute w insn a rest).1.Told := by
  have hkeeps := Exec.perform_keepsRoutine w.classes insn ⟨a, s.heap, s.statics⟩
  rw [Told, hframes] at hs
  unfold execute
  dsimp only
  generalize (Exec.perform w.classes insn).run ⟨a, s.heap, s.statics⟩ = result at hkeeps
  -- the activation still has the name under which its call was told of
  have hname {p : Workplace} (hp : p.frame.routine = a.routine) :
      Event.Traced s.events.toList (active (p.frame :: rest)) := by
    rwa [active, List.map_cons, hp]
  cases result with
  | ok progress p =>
    have hp := hname (p := p) hkeeps
    cases progress with
    | next => exact hp
    | leave v => exact told_leave ho hp v
    | call c =>
      refine told_call ho hcalls ?_ c
      exact hp
  | error halt p =>
    have hp := hname (p := p) hkeeps
    cases halt with
    | raised exception =>
      refine told_raise ?_ exception
      exact hp
    | failed cause =>
      refine told_failHere ?_ cause
      exact hp
    | underflow | breakdown => exact hp.of_suffix List.nil_suffix

omit ho hcalls in
/-- The observer is told of a step of the running activation, if at all. -/
theorem told_tellStep (o : Observer) (hframes : s.frames = a :: rest) (hs : s.Told) (op : Opcode) :
    (s.tellStep o a op).1.Told ∧ (s.tellStep o a op).1.frames = s.frames := by
  have htraced := hs
  rw [Told, hframes] at htraced
  have hstep := htraced.step a.ip op a.line a.stack.length
  rw [List.length_map] at hstep
  have hfire : Event.Traced (s.events.push (.step a.routine.key a.ip op a.line a.stack.length
      s.frames.length)).toList (active s.frames) := by
    rw [Array.toList_push, hframes]
    exact hstep
  unfold tellStep
  dsimp only
  split
  · exact ⟨hfire, rfl⟩
  · exact ⟨hs, rfl⟩
  · split
    · exact ⟨hs, rfl⟩
    · exact ⟨hfire, rfl⟩
  · split
    · exact ⟨hfire, rfl⟩
    · exact ⟨hs, rfl⟩

/-- **What one step preserves.** -/
theorem told_step (hs : s.Told) : (s.step w).1.Told := by
  unfold step
  split
  · exact told_ends hs _
  next a rest hframes =>
  have hpass := hs
  rw [Told, hframes] at hpass
  split
  · exact told_ends hs _
  · exact hpass
  next insn _ _ =>
  split
  · exact hpass
  -- looking at the cancellation changes neither the events nor the activations
  have hpoll : (s.poll w).1.Told ∧ (s.poll w).1.frames = a :: rest := by
    unfold poll
    split
    · split <;> exact ⟨hs, hframes⟩
    · exact ⟨hs, hframes⟩
  unfold advance
  dsimp only
  split
  · next s' heq =>
    rw [heq] at hpoll
    exact told_ends hpoll.1 _
  next s' heq =>
  rw [heq] at hpoll
  rw [ho]
  dsimp only
  obtain ⟨htold, hsame⟩ := told_tellStep o hpoll.2 hpoll.1 insn.opcode
  have hroutine := (tellStep_activation o a insn.opcode s').1
  split
  · next s'' _ heq' =>
    rw [heq'] at htold
    exact told_ends htold _
  · next s'' b heq' =>
    rw [heq'] at htold hsame hroutine
    refine told_execute ho hcalls (s := { s'' with frames := b :: rest }) rfl ?_ insn
    rw [Told, hsame, hpoll.2] at htold
    rw [Told, active, List.map_cons, hroutine]
    exact htold

/-- **What a whole run preserves.** -/
theorem told_run (fuel : Nat) (hs : s.Told) : (s.run w fuel).1.Told := by
  induction fuel generalizing s with
  | zero => exact hs
  | succ fuel ih =>
    have hstep := told_step ho hcalls hs
    rw [run]
    split
    · next s' heq =>
      rw [heq] at hstep
      exact ih hstep
    · next s' ending heq =>
      rw [heq] at hstep
      exact hstep

end Calls

end Run

/-! ### Calls from outside -/

namespace Machine

variable {m : Machine} {o : Observer}

/-- A call from outside begins with nothing told and nothing active. -/
theorem told_begin (ho : m.world.observer = some o) (hcalls : o.calls = true) (c : Call) :
    (begin m.world c m.idle).1.Told := by
  have henter := Run.told_enter ho hcalls (s := m.idle) Event.Traced.start c
  unfold begin
  generalize m.idle.enter m.world c = out at henter
  obtain ⟨s, entry⟩ := out
  cases entry with
  | started => exact henter
  | finished v => exact Run.told_ends henter _
  | raised exception => exact Run.told_raise henter exception
  | failed cause => exact Run.told_failHere henter cause
  | breakdown => exact Run.told_ends henter _

/-- **The events of a run are nested**, whatever is called, whatever happens on the way and however
the run ends, and also while it is still going on: each return is preceded by a call to the depth it
returns from, of which the latest is of the same routine and has not been returned from, and each
step belongs to the latest call to its depth. No call is left out: in every state each activation
has a call that is still open. -/
theorem events_nested (ho : m.world.observer = some o) (hcalls : o.calls = true)
    (owner name descriptor : String) (args : List Value) :
    (∀ fuel, Event.Nested (m.invoke fuel owner name descriptor args).2.1.toList) ∧
    ∀ s, m.Attains owner name descriptor args s →
      Event.Open s.events.toList (s.frames.map fun a => a.routine.key) := by
  constructor
  -- a call that is refused tells nothing; else the first event is that of its own activation
  · intro fuel
    unfold invoke
    split
    · exact Event.nested_nil
    next values _ =>
    have hbegin := told_begin ho hcalls (outerCall owner name descriptor values)
    dsimp only
    split
    · next s ending heq =>
      rw [outerCall, idle, heq] at hbegin
      exact hbegin.nested.1
    · next s heq =>
      rw [outerCall, idle, heq] at hbegin
      exact (Run.told_run ho hcalls fuel hbegin).nested.1
  · rintro s ⟨values, start, n, -, hstart, hrun⟩
    have hbegin := told_begin ho hcalls (outerCall owner name descriptor values)
    rw [hstart] at hbegin
    have htold := Run.told_run ho hcalls n hbegin
    rw [hrun] at htold
    exact htold.nested.2

/-- A routine that catches whatever is thrown by the routine it calls. -/
def catching : RoutineParts where
  owner := "T"
  name := "f"
  descriptor := "()I"
  access := .static
  code := #[some (.label ⟨0, ""⟩), some (.method (.invoke .static) "T" "g" "()V" false),
    some (.label ⟨1, ""⟩), some (.int .bipush 1), some (.plain (.returnValue .int)),
    some (.label ⟨2, ""⟩), some (.plain .pop), some (.int .bipush 2),
    some (.plain (.returnValue .int))]
  blocks := [⟨⟨0, ""⟩, ⟨1, ""⟩, ⟨2, ""⟩, ""⟩]
  maxLocals := 0
  maxStack := 1

/-- A routine that throws. -/
def throwing : RoutineParts where
  owner := "T"
  name := "g"
  descriptor := "()V"
  access := .static
  code := #[some (.plain .aconstNull), some (.plain .athrow)]
  blocks := []
  maxLocals := 0
  maxStack := 1

/-- A machine with two routines and an observer that is told of everything. -/
def watched (r r' : Routine) : Machine :=
  (define { world := { observer := some {} } } r).define r'

/-- The run of a routine that throws ends without a return, and its caller goes on one level further
out: two calls, six steps and one return are told of, and they are nested. -/
theorem events_nested_catching :
    ∃ r r', Routine.make catching = .ok r ∧ Routine.make throwing = .ok r' ∧
      ((watched r r').invoke 20 "T" "f" "()I" []).2.1.size = 9 ∧
      Event.Nested ((watched r r').invoke 20 "T" "f" "()I" []).2.1.toList ∧
      ∀ s, (watched r r').Attains "T" "f" "()I" [] s →
        Event.Open s.events.toList (s.frames.map fun a => a.routine.key) := by
  have hrun : (Routine.make catching).toOption.any fun r =>
      (Routine.make throwing).toOption.any fun r' =>
        ((watched r r').invoke 20 "T" "f" "()I" []).2.1.size = 9 := by
    decide +kernel
  obtain ⟨r, hr, hrun⟩ := exists_ok_of_any hrun
  obtain ⟨r', hr', hsize⟩ := exists_ok_of_any hrun
  obtain ⟨hnested, hopen⟩ := events_nested (m := watched r r') (o := {}) rfl rfl "T" "f" "()I" []
  exact ⟨r, r', hr, hr', of_decide_eq_true hsize, hnested 20, hopen⟩

end Machine

end Outliner
