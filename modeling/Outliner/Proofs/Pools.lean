import Mathlib.Data.List.Forall2
import Outliner.Assembly.Pool

/-!
# Constant pools as tables

A pool is asked for constants and answers with their indexes. `Pool.table` lists its entries with
the indexes they have, `Pool.constantAt?` says which constant stands at an index, following the
references of the entry there, and `Pool.serve` answers a whole sequence of requests, some of which
may fail.

* `Pool.serve_orderly` — whatever is asked for, the table only grows at its end, its entries tile
  the indexes below the next free one, references lead to earlier entries of the right kind, and two
  requests get one index exactly when they ask for one constant.

A request may add several entries and fail half-way, so everything rests on what a single entry does
to a table in good order (`Pool.Closed`), carried along the steps of a request by `Pooling.Adds`.
-/

namespace Outliner

/-! ### Entries and their indexes -/

namespace Pool

/-- Entries with their indexes, when the first one has index `start`. -/
def indexed (start : Nat) : List PoolEntry → List (Nat × PoolEntry)
  | [] => []
  | e :: rest => (start, e) :: indexed (start + e.width) rest

/-- The first index that entries leave free. -/
def indexAfter (start : Nat) (entries : List PoolEntry) : Nat :=
  entries.foldl (fun n e => n + e.width) start

/-- **The entries of a pool with their indexes.** -/
def table (p : Pool) : List (Nat × PoolEntry) :=
  indexed 1 p.entries.toList

end Pool

theorem PoolEntry.width_pos (e : PoolEntry) : 0 < e.width := by
  unfold PoolEntry.width
  split <;> decide

namespace Pool

theorem indexed_append (start : Nat) (entries entries' : List PoolEntry) :
    indexed start (entries ++ entries') =
      indexed start entries ++ indexed (indexAfter start entries) entries' := by
  induction entries generalizing start with
  | nil => rfl
  | cons e rest ih =>
    rw [List.cons_append, indexed, ih]
    rfl

theorem le_indexAfter (start : Nat) (entries : List PoolEntry) :
    start ≤ indexAfter start entries := by
  induction entries generalizing start with
  | nil => exact Nat.le_refl start
  | cons e rest ih => exact Nat.le_trans (Nat.le_add_right start e.width) (ih _)

theorem mem_indexed {start i : Nat} {e : PoolEntry} {entries : List PoolEntry}
    (h : (i, e) ∈ indexed start entries) : start ≤ i ∧ i + e.width ≤ indexAfter start entries := by
  induction entries generalizing start with
  | nil => cases h
  | cons first rest ih =>
    have hafter : indexAfter start (first :: rest) = indexAfter (start + first.width) rest := rfl
    rcases List.mem_cons.1 h with heq | h
    · obtain ⟨rfl, rfl⟩ := Prod.mk.inj heq
      exact ⟨Nat.le_refl _, hafter ▸ le_indexAfter _ rest⟩
    · obtain ⟨hle, hend⟩ := ih h
      exact ⟨Nat.le_trans (Nat.le_add_right _ _) hle, hafter ▸ hend⟩

/-- Each entry ends before the next one starts. -/
theorem pairwise_indexed (start : Nat) (entries : List PoolEntry) :
    (indexed start entries).Pairwise fun a b => a.1 + a.2.width ≤ b.1 := by
  induction entries generalizing start with
  | nil => exact .nil
  | cons e rest ih =>
    refine List.pairwise_cons.2 ⟨?_, ih _⟩
    rintro ⟨i, e'⟩ h
    exact (mem_indexed h).1

/-- An index has one entry. -/
theorem entry_unique {start i : Nat} {e e' : PoolEntry} {entries : List PoolEntry}
    (h : (i, e) ∈ indexed start entries) (h' : (i, e') ∈ indexed start entries) : e = e' := by
  induction entries generalizing start with
  | nil => cases h
  | cons first rest ih =>
    have hwidth := first.width_pos
    -- what is in the rest starts after the first entry
    have hrest : ∀ e', (start, e') ∉ indexed (start + first.width) rest := by
      intro e' hmem
      have hle := (mem_indexed hmem).1
      omega
    rcases List.mem_cons.1 h with heq | h <;> rcases List.mem_cons.1 h' with heq' | h'
    · exact (Prod.mk.inj (heq.trans heq'.symm)).2
    · rw [(Prod.mk.inj heq).1] at h'
      exact absurd h' (hrest e')
    · rw [(Prod.mk.inj heq').1] at h
      exact absurd h (hrest e)
    · exact ih h h'

/-- Every index up to the first free one belongs to an entry. -/
theorem exists_of_lt_indexAfter {start n : Nat} {entries : List PoolEntry} (hle : start ≤ n)
    (hlt : n < indexAfter start entries) :
    ∃ i e, (i, e) ∈ indexed start entries ∧ i ≤ n ∧ n < i + e.width := by
  induction entries generalizing start with
  | nil => exact absurd hlt (Nat.not_lt.2 hle)
  | cons e rest ih =>
    by_cases hn : n < start + e.width
    · exact ⟨start, e, List.mem_cons_self, hle, hn⟩
    · obtain ⟨i, e', hmem, hi⟩ := ih (Nat.not_lt.1 hn) hlt
      exact ⟨i, e', List.mem_cons_of_mem _ hmem, hi⟩

/-! ### Pools in good order -/

end Pool

/-- What each reference of an entry has to lead to: the tag of an entry, or nothing where a call
site names the method that links it. -/
def PoolEntry.refTags : PoolEntry → List (Option Nat)
  | .classRef _ | .stringRef _ => [some 1]
  | .nameAndType _ _ => [some 1, some 1]
  | .member _ _ _ => [some 7, some 12]
  | .callSite _ => [none, some 12]
  | _ => []

namespace Pool

/-- A reference to an index below `bound` is to an entry with the tag asked for, or to nothing. -/
def Leads (p : Pool) (bound i : Nat) : Option Nat → Prop
  | some tag => i < bound ∧ ∃ e, (i, e) ∈ p.table ∧ e.tag = tag
  | none => i = 0

/-- **A pool in good order**: the next index is the first free one, the index of an entry is the one
it has in the table, and references lead to earlier entries of the right kind. -/
structure Closed (p : Pool) : Prop where
  next_eq : p.next = indexAfter 1 p.entries.toList
  get?_iff : ∀ e i, p.indexes.get? e = some i ↔ (i, e) ∈ p.table
  refs : ∀ i e, (i, e) ∈ p.table → List.Forall₂ (p.Leads i) e.refs e.refTags

theorem closed_empty : Closed .empty where
  next_eq := rfl
  get?_iff := by
    intro e i
    simp [empty, table, indexed]
  refs := by
    intro i e h
    cases h

theorem Leads.mono {p p' : Pool} (h : p.table <+: p'.table) {bound bound' i : Nat}
    (hle : bound ≤ bound') {tag : Option Nat} (hl : p.Leads bound i tag) :
    p'.Leads bound' i tag := by
  cases tag with
  | none => exact hl
  | some tag =>
    obtain ⟨hlt, e, hmem, htag⟩ := hl
    exact ⟨Nat.lt_of_lt_of_le hlt hle, e, h.subset hmem, htag⟩

namespace Closed

variable {p : Pool} (hp : p.Closed)

include hp

theorem lt_next {i : Nat} {e : PoolEntry} (h : (i, e) ∈ p.table) : i < p.next := by
  have hend := (mem_indexed h).2
  have hwidth := e.width_pos
  rw [← hp.next_eq] at hend
  omega

/-- An entry has one index. -/
theorem index_unique {i j : Nat} {e : PoolEntry} (hi : (i, e) ∈ p.table) (hj : (j, e) ∈ p.table) :
    i = j := by
  have hget := (hp.get?_iff e i).2 hi
  rw [(hp.get?_iff e j).2 hj] at hget
  exact (Option.some.inj hget).symm

/-- Asking for an entry that is there gives its index and changes nothing. -/
theorem intern_of_mem {i : Nat} {e : PoolEntry} (h : (i, e) ∈ p.table) :
    intern e p = (.ok i, p) := by
  unfold intern
  rw [(hp.get?_iff e i).2 h]

/-- A new entry stands at the end of the table, at the index that was free. -/
theorem indexed_push (e : PoolEntry) :
    indexed 1 (p.entries.push e).toList = p.table ++ [(p.next, e)] := by
  rw [Array.toList_push, indexed_append, ← hp.next_eq]
  rfl

/-- **What asking for an entry does**: the pool stays in good order, its table is extended at its
end if at all, and the answer is the index of the entry. -/
theorem intern {e : PoolEntry} (hrefs : List.Forall₂ (p.Leads p.next) e.refs e.refTags) :
    (Pool.intern e p).2.Closed ∧ p.table <+: (Pool.intern e p).2.table ∧
      ∀ i, (Pool.intern e p).1 = .ok i → (i, e) ∈ (Pool.intern e p).2.table := by
  unfold Pool.intern
  split
  · next index hget =>
    refine ⟨hp, List.prefix_refl _, ?_⟩
    intro i hi
    obtain rfl := Except.ok.inj hi
    exact (hp.get?_iff e index).1 hget
  next hget =>
  split
  · exact ⟨hp, List.prefix_refl _, nofun⟩
  dsimp only
  have htable := hp.indexed_push e
  have hprefix : p.table <+: indexed 1 (p.entries.push e).toList := by
    rw [htable]
    exact List.prefix_append _ _
  refine ⟨⟨?_, ?_, ?_⟩, hprefix, ?_⟩
  · have hafter : indexAfter 1 (p.entries.push e).toList =
        indexAfter 1 p.entries.toList + e.width := by
      rw [Array.toList_push, indexAfter, List.foldl_append]
      rfl
    rw [hafter, ← hp.next_eq]
  · intro e' i
    -- the index noted for the new entry hides none, since it had no index before
    have hnone : ∀ j, (j, e) ∉ p.table := by
      intro j hj
      rw [(hp.get?_iff e j).2 hj] at hget
      cases hget
    have hold := hp.get?_iff e' i
    rw [Std.HashMap.get?_eq_getElem?] at hold
    rw [Std.HashMap.get?_eq_getElem?, Std.HashMap.getElem?_insert]
    change _ ↔ (i, e') ∈ indexed 1 (p.entries.push e).toList
    rw [htable, List.mem_append, List.mem_singleton, ← hold]
    by_cases heq : e = e'
    · subst heq
      have hno : ¬ p.indexes[e]? = some i := fun h => hnone i (hold.1 h)
      simp [hno, eq_comm]
    · simp [heq, Ne.symm heq]
  · intro i e' hmem
    change (i, e') ∈ indexed 1 (p.entries.push e).toList at hmem
    rw [htable] at hmem
    -- references of old entries lead where they led; those of the new one are given
    rcases List.mem_append.1 hmem with hold | hnew
    · exact (hp.refs i e' hold).imp fun j tag hl => hl.mono hprefix (Nat.le_refl _)
    · obtain ⟨rfl, rfl⟩ := Prod.mk.inj (List.mem_singleton.1 hnew)
      exact hrefs.imp fun j tag hl => hl.mono hprefix (Nat.le_refl _)
  · intro i hi
    obtain rfl := Except.ok.inj hi
    change (p.next, e) ∈ indexed 1 (p.entries.push e).toList
    rw [htable]
    exact List.mem_append_right _ (List.mem_singleton.2 rfl)

end Closed

end Pool

/-! ### What an index means -/

/-- **A constant that a pool can be asked for.** -/
inductive PoolRequest where
  | utf8 (text : String)
  | integer (n : Int32)
  | float (bits : UInt32)
  | long (n : Int64)
  | double (bits : UInt64)
  | string (text : String)
  | classNamed (name : String)
  | nameAndType (name descriptor : String)
  | member (tag : MemberTag) (owner name descriptor : String)
  | callSite (name descriptor : String)
  deriving DecidableEq, Repr

/-- The work that finds the index of a constant. -/
def PoolRequest.ask : PoolRequest → Pooling Nat
  | utf8 text => Pooling.utf8 text
  | integer n => Pooling.entry (.integer n)
  | float bits => Pooling.entry (.float bits)
  | long n => Pooling.entry (.long n)
  | double bits => Pooling.entry (.double bits)
  | string text => Pooling.string text
  | classNamed name => Pooling.classNamed name
  | nameAndType name descriptor => Pooling.nameAndType name descriptor
  | member tag owner name descriptor => Pooling.member tag owner name descriptor
  | callSite name descriptor => Pooling.callSite name descriptor

namespace Pool

/-- The entry at an index. -/
def entryAt? (p : Pool) (i : Nat) : Option PoolEntry :=
  p.table.lookup i

/-- The text at an index. -/
def textAt? (p : Pool) (i : Nat) : Option String :=
  match p.entryAt? i with
  | some (.utf8 text) => some text
  | _ => none

/-- The class at an index. -/
def classAt? (p : Pool) (i : Nat) : Option String :=
  match p.entryAt? i with
  | some (.classRef name) => p.textAt? name
  | _ => none

/-- The name and the descriptor at an index. -/
def pairAt? (p : Pool) (i : Nat) : Option (String × String) :=
  match p.entryAt? i with
  | some (.nameAndType name descriptor) =>
    match p.textAt? name, p.textAt? descriptor with
    | some name, some descriptor => some (name, descriptor)
    | _, _ => none
  | _ => none

/-- **The constant at an index**, found by following references down to texts and numbers. -/
def constantAt? (p : Pool) (i : Nat) : Option PoolRequest :=
  match p.entryAt? i with
  | some (.utf8 text) => some (.utf8 text)
  | some (.integer n) => some (.integer n)
  | some (.float bits) => some (.float bits)
  | some (.long n) => some (.long n)
  | some (.double bits) => some (.double bits)
  | some (.stringRef text) => (p.textAt? text).map .string
  | some (.classRef _) => (p.classAt? i).map .classNamed
  | some (.nameAndType _ _) => (p.pairAt? i).map fun pair => .nameAndType pair.1 pair.2
  | some (.member tag owner signature) =>
    match p.classAt? owner, p.pairAt? signature with
    | some owner, some pair => some (.member tag owner pair.1 pair.2)
    | _, _ => none
  | some (.callSite signature) => (p.pairAt? signature).map fun pair => .callSite pair.1 pair.2
  | none => none

theorem entryAt?_eq_some {p : Pool} {i : Nat} {e : PoolEntry} :
    p.entryAt? i = some e ↔ (i, e) ∈ p.table := by
  unfold entryAt?
  constructor
  · intro h
    obtain ⟨l, l', heq, -⟩ := List.lookup_eq_some_iff.1 h
    rw [heq]
    exact List.mem_append_right _ List.mem_cons_self
  · intro h
    cases hget : p.table.lookup i with
    | none => exact absurd (List.lookup_eq_none_iff.1 hget (i, e) h) (by simp)
    | some e' =>
      obtain ⟨l, l', heq, -⟩ := List.lookup_eq_some_iff.1 hget
      have hmem : (i, e') ∈ p.table := by
        rw [heq]
        exact List.mem_append_right _ List.mem_cons_self
      rw [entry_unique hmem h]

theorem textAt?_eq_some {p : Pool} {i : Nat} {text : String} :
    p.textAt? i = some text ↔ p.entryAt? i = some (.utf8 text) := by
  unfold textAt?
  split
  · next text' h => simp [h]
  · next h => exact ⟨nofun, fun h' => absurd h' (h text)⟩

theorem classAt?_eq_some {p : Pool} {i : Nat} {name : String} :
    p.classAt? i = some name ↔
      ∃ j, p.entryAt? i = some (.classRef j) ∧ p.entryAt? j = some (.utf8 name) := by
  unfold classAt?
  split
  · next j h => simp [h, textAt?_eq_some]
  · next h =>
    refine ⟨nofun, ?_⟩
    rintro ⟨j, hj, -⟩
    exact absurd hj (h j)

theorem pairAt?_eq_some {p : Pool} {i : Nat} {pair : String × String} :
    p.pairAt? i = some pair ↔
      ∃ j k, p.entryAt? i = some (.nameAndType j k) ∧ p.entryAt? j = some (.utf8 pair.1) ∧
        p.entryAt? k = some (.utf8 pair.2) := by
  unfold pairAt?
  split
  · next j k h =>
    split
    · next name descriptor hname hdescriptor =>
      rw [textAt?_eq_some] at hname hdescriptor
      simp [h, hname, hdescriptor, Prod.ext_iff]
    · next hno =>
      refine ⟨nofun, ?_⟩
      rintro ⟨j', k', hentry, hname, hdescriptor⟩
      obtain ⟨rfl, rfl⟩ := PoolEntry.nameAndType.inj (Option.some.inj (h.symm.trans hentry))
      exact absurd (textAt?_eq_some.2 hdescriptor) (hno _ _ (textAt?_eq_some.2 hname))
  · next h =>
    refine ⟨nofun, ?_⟩
    rintro ⟨j, k, hentry, -⟩
    exact absurd hentry (h j k)

section Growing

variable {p p' : Pool} (h : p.table <+: p'.table)

include h

/-- What an index means does not change when the table grows at its end. -/
theorem entryAt?_mono {i : Nat} {e : PoolEntry} (he : p.entryAt? i = some e) :
    p'.entryAt? i = some e :=
  entryAt?_eq_some.2 (h.subset (entryAt?_eq_some.1 he))

theorem classAt?_mono {i : Nat} {name : String} (hname : p.classAt? i = some name) :
    p'.classAt? i = some name := by
  obtain ⟨j, hi, hj⟩ := classAt?_eq_some.1 hname
  exact classAt?_eq_some.2 ⟨j, entryAt?_mono h hi, entryAt?_mono h hj⟩

theorem pairAt?_mono {i : Nat} {pair : String × String} (hpair : p.pairAt? i = some pair) :
    p'.pairAt? i = some pair := by
  obtain ⟨j, k, hi, hj, hk⟩ := pairAt?_eq_some.1 hpair
  exact pairAt?_eq_some.2 ⟨j, k, entryAt?_mono h hi, entryAt?_mono h hj, entryAt?_mono h hk⟩

theorem constantAt?_mono {i : Nat} {q : PoolRequest} (hq : p.constantAt? i = some q) :
    p'.constantAt? i = some q := by
  unfold constantAt? at hq ⊢
  cases he : p.entryAt? i with
  | none => rw [he] at hq; cases hq
  | some e =>
    rw [he] at hq
    rw [entryAt?_mono h he]
    -- what an entry refers to is found again, entry by entry
    cases e with
    | utf8 _ | integer _ | float _ | long _ | double _ => exact hq
    | stringRef j =>
      obtain ⟨text, htext, rfl⟩ := Option.map_eq_some_iff.1 hq
      have htext' := textAt?_eq_some.2 (entryAt?_mono h (textAt?_eq_some.1 htext))
      exact Option.map_eq_some_iff.2 ⟨text, htext', rfl⟩
    | classRef j =>
      obtain ⟨name, hname, rfl⟩ := Option.map_eq_some_iff.1 hq
      exact Option.map_eq_some_iff.2 ⟨name, classAt?_mono h hname, rfl⟩
    | nameAndType j k =>
      obtain ⟨pair, hpair, rfl⟩ := Option.map_eq_some_iff.1 hq
      exact Option.map_eq_some_iff.2 ⟨pair, pairAt?_mono h hpair, rfl⟩
    | member tag owner signature =>
      dsimp only at hq ⊢
      split at hq
      · next name pair hname hpair =>
        rw [classAt?_mono h hname, pairAt?_mono h hpair]
        exact hq
      · cases hq
    | callSite signature =>
      obtain ⟨pair, hpair, rfl⟩ := Option.map_eq_some_iff.1 hq
      exact Option.map_eq_some_iff.2 ⟨pair, pairAt?_mono h hpair, rfl⟩

end Growing

/-- A property of pools that they keep when their tables grow. -/
def Lasting (pre : Pool → Prop) : Prop :=
  ∀ p p' : Pool, p.table <+: p'.table → pre p → pre p'

end Pool

/-! ### Requests step by step -/

namespace Pooling

open Pool (Lasting Closed)

variable {α β : Type}

/-- Work in two steps: a failure of the first one keeps the pool as that step left it. -/
theorem bind_run (x : Pooling α) (f : α → Pooling β) (p : Pool) :
    (x >>= f) p = match x p with
      | (.ok a, p') => f a p'
      | (.error e, p') => (.error e, p') := by
  change (match x p with | (a, p') => ExceptT.bindCont f a p') = _
  rcases x p with ⟨_ | _, p'⟩ <;> rfl

/-- **Work that only adds to pools in good order**: in a pool that meets `pre` it extends the table
at its end, if at all, and an index that it gives meets `post`. Nothing is said about when it
fails. -/
def Adds (pre : Pool → Prop) (work : Pooling Nat) (post : Pool → Nat → Prop) : Prop :=
  ∀ p : Pool, p.Closed → pre p →
    (work p).2.Closed ∧ p.table <+: (work p).2.table ∧ ∀ i, (work p).1 = .ok i → post (work p).2 i

variable {pre : Pool → Prop} {mid post post' : Pool → Nat → Prop} {x : Pooling Nat}
  {f : Nat → Pooling Nat}

theorem Adds.imp (h : Adds pre x post) (himp : ∀ p i, post p i → post' p i) : Adds pre x post' := by
  intro p hp hpre
  obtain ⟨hclosed, hgrows, hpost⟩ := h p hp hpre
  exact ⟨hclosed, hgrows, fun i hi => himp _ i (hpost i hi)⟩

theorem Adds.bind (hx : Adds pre x mid) (hf : ∀ i, Adds (fun p => mid p i) (f i) post) :
    Adds pre (x >>= f) post := by
  intro p hp hpre
  obtain ⟨hclosed, hgrows, hmid⟩ := hx p hp hpre
  rw [bind_run]
  -- a first step that fails has done its part of the work all the same
  rcases hrun : x p with ⟨e | i, p'⟩ <;> rw [hrun] at hclosed hgrows hmid
  · exact ⟨hclosed, hgrows, nofun⟩
  · obtain ⟨hclosed', hgrows', hpost⟩ := hf i p' hclosed (hmid i rfl)
    exact ⟨hclosed', hgrows.trans hgrows', hpost⟩

/-- Asking for an entry whose references are in order. What held before and lasts still holds. -/
theorem adds_entry (hpre : Lasting pre) {e : PoolEntry}
    (hrefs : ∀ p : Pool, p.Closed → pre p → List.Forall₂ (p.Leads p.next) e.refs e.refTags) :
    Adds pre (entry e) fun p i => pre p ∧ p.entryAt? i = some e := by
  intro p hp hmeets
  obtain ⟨hclosed, hgrows, hmem⟩ := hp.intern (hrefs p hp hmeets)
  refine ⟨hclosed, hgrows, ?_⟩
  intro i hi
  exact ⟨hpre _ _ hgrows hmeets, Pool.entryAt?_eq_some.2 (hmem i hi)⟩

theorem leads_of_entryAt? {p : Pool} (hp : p.Closed) {i : Nat} {e : PoolEntry}
    (h : p.entryAt? i = some e) : p.Leads p.next i (some e.tag) := by
  have hmem := Pool.entryAt?_eq_some.1 h
  exact ⟨hp.lt_next hmem, e, hmem, rfl⟩

theorem lasting_entryAt? (hpre : Lasting pre) (i : Nat) (e : PoolEntry) :
    Lasting fun p => pre p ∧ p.entryAt? i = some e := by
  rintro p p' hgrows ⟨hmeets, he⟩
  exact ⟨hpre p p' hgrows hmeets, Pool.entryAt?_mono hgrows he⟩

theorem adds_utf8 (hpre : Lasting pre) (text : String) :
    Adds pre (utf8 text) fun p i => pre p ∧ p.entryAt? i = some (.utf8 text) :=
  adds_entry hpre fun _ _ _ => .nil

theorem adds_string (hpre : Lasting pre) (text : String) :
    Adds pre (string text) fun p i => p.constantAt? i = some (.string text) := by
  refine (adds_utf8 hpre text).bind fun j => ?_
  refine (adds_entry (lasting_entryAt? hpre _ _) ?_).imp ?_
  · rintro p hp ⟨-, hj⟩
    exact .cons (leads_of_entryAt? hp hj) .nil
  · rintro p i ⟨⟨-, hj⟩, hi⟩
    simp [Pool.constantAt?, hi, Pool.textAt?_eq_some.2 hj]

theorem adds_classNamed (hpre : Lasting pre) (name : String) :
    Adds pre (classNamed name) fun p i => pre p ∧ p.classAt? i = some name := by
  refine (adds_utf8 hpre name).bind fun j => ?_
  refine (adds_entry (lasting_entryAt? hpre _ _) ?_).imp ?_
  · rintro p hp ⟨-, hj⟩
    exact .cons (leads_of_entryAt? hp hj) .nil
  · rintro p i ⟨⟨hmeets, hj⟩, hi⟩
    exact ⟨hmeets, Pool.classAt?_eq_some.2 ⟨j, hi, hj⟩⟩

theorem adds_nameAndType (hpre : Lasting pre) (name descriptor : String) :
    Adds pre (nameAndType name descriptor)
      fun p i => pre p ∧ p.pairAt? i = some (name, descriptor) := by
  refine (adds_utf8 hpre name).bind fun j => ?_
  have hname := lasting_entryAt? hpre j (.utf8 name)
  refine (adds_utf8 hname descriptor).bind fun k => ?_
  refine (adds_entry (lasting_entryAt? hname _ _) ?_).imp ?_
  · rintro p hp ⟨⟨-, hj⟩, hk⟩
    exact .cons (leads_of_entryAt? hp hj) (.cons (leads_of_entryAt? hp hk) .nil)
  · rintro p i ⟨⟨⟨hmeets, hj⟩, hk⟩, hi⟩
    exact ⟨hmeets, Pool.pairAt?_eq_some.2 ⟨j, k, hi, hj, hk⟩⟩

theorem leads_of_classAt? {p : Pool} (hp : p.Closed) {i : Nat} {name : String}
    (h : p.classAt? i = some name) : p.Leads p.next i (some 7) := by
  obtain ⟨j, hi, -⟩ := Pool.classAt?_eq_some.1 h
  exact leads_of_entryAt? hp hi

theorem leads_of_pairAt? {p : Pool} (hp : p.Closed) {i : Nat} {pair : String × String}
    (h : p.pairAt? i = some pair) : p.Leads p.next i (some 12) := by
  obtain ⟨j, k, hi, -⟩ := Pool.pairAt?_eq_some.1 h
  exact leads_of_entryAt? hp hi

theorem adds_member (tag : MemberTag) (owner name descriptor : String) :
    Adds (fun _ => True) (member tag owner name descriptor)
      fun p i => p.constantAt? i = some (.member tag owner name descriptor) := by
  refine (adds_classNamed (fun _ _ _ h => h) owner).bind fun c => ?_
  -- the class found first is still there when the pair and the entry have been added
  have hclass : Lasting fun p => True ∧ p.classAt? c = some owner := by
    rintro p p' hgrows ⟨-, hc⟩
    exact ⟨trivial, Pool.classAt?_mono hgrows hc⟩
  refine (adds_nameAndType hclass name descriptor).bind fun s => ?_
  have hpair : Lasting fun p => (True ∧ p.classAt? c = some owner) ∧
      p.pairAt? s = some (name, descriptor) := by
    rintro p p' hgrows ⟨hc, hs⟩
    exact ⟨hclass p p' hgrows hc, Pool.pairAt?_mono hgrows hs⟩
  refine (adds_entry hpair ?_).imp ?_
  · rintro p hp ⟨⟨-, hc⟩, hs⟩
    exact .cons (leads_of_classAt? hp hc) (.cons (leads_of_pairAt? hp hs) .nil)
  · rintro p i ⟨⟨⟨-, hc⟩, hs⟩, hi⟩
    simp [Pool.constantAt?, hi, hc, hs]

theorem adds_callSite (name descriptor : String) :
    Adds (fun _ => True) (callSite name descriptor)
      fun p i => p.constantAt? i = some (.callSite name descriptor) := by
  refine (adds_nameAndType (fun _ _ _ h => h) name descriptor).bind fun s => ?_
  have hpair : Lasting fun p => True ∧ p.pairAt? s = some (name, descriptor) := by
    rintro p p' hgrows ⟨-, hs⟩
    exact ⟨trivial, Pool.pairAt?_mono hgrows hs⟩
  refine (adds_entry hpair ?_).imp ?_
  · rintro p hp ⟨-, hs⟩
    exact .cons rfl (.cons (leads_of_pairAt? hp hs) .nil)
  · rintro p i ⟨⟨-, hs⟩, hi⟩
    simp [Pool.constantAt?, hi, hs]

/-- Work that succeeds when `n` more indexes are free, and uses no more than that. -/
def Needs (n : Nat) (work : Pooling Nat) : Prop :=
  ∀ p : Pool, p.next + n ≤ Pool.limit →
    ∃ i, (work p).1 = .ok i ∧ (work p).2.next ≤ p.next + n

theorem Needs.bind {m n : Nat} (hx : Needs m x) (hf : ∀ i, Needs n (f i)) :
    Needs (m + n) (x >>= f) := by
  intro p hroom
  obtain ⟨i, hi, hnext⟩ := hx p (by omega)
  rw [bind_run]
  rcases hrun : x p with ⟨e | j, p'⟩ <;> rw [hrun] at hi hnext
  · cases hi
  · dsimp only at hnext ⊢
    obtain ⟨k, hk, hnext'⟩ := hf j p' (by omega)
    exact ⟨k, hk, by omega⟩

theorem needs_entry (e : PoolEntry) : Needs 2 (entry e) := by
  have hwidth : e.width ≤ 2 := by
    unfold PoolEntry.width
    split <;> decide
  intro p hroom
  change ∃ i, (Pool.intern e p).1 = .ok i ∧ (Pool.intern e p).2.next ≤ p.next + 2
  unfold Pool.intern
  split
  · next index _ => exact ⟨index, rfl, Nat.le_add_right _ _⟩
  · rw [if_neg (by omega)]
    exact ⟨p.next, rfl, Nat.add_le_add_left hwidth _⟩

theorem needs_classNamed (name : String) : Needs 4 (classNamed name) :=
  (needs_entry _).bind fun _ => needs_entry _

theorem needs_nameAndType (name descriptor : String) : Needs 6 (nameAndType name descriptor) :=
  (needs_entry _).bind fun _ => (needs_entry _).bind fun _ => needs_entry _

/-- A first step that finds its index leaves the work to the second one. -/
theorem bind_of_ok {x : Pooling α} {f : α → Pooling β} {p p' : Pool} {a : α}
    (h : x p = (.ok a, p')) : (x >>= f) p = f a p' := by
  rw [bind_run, h]

section Again

variable {p : Pool} (hp : p.Closed)

include hp

theorem entry_again {i : Nat} {e : PoolEntry} (h : p.entryAt? i = some e) :
    entry e p = (.ok i, p) :=
  hp.intern_of_mem (Pool.entryAt?_eq_some.1 h)

theorem classNamed_again {i : Nat} {name : String} (h : p.classAt? i = some name) :
    classNamed name p = (.ok i, p) := by
  obtain ⟨j, hi, hj⟩ := Pool.classAt?_eq_some.1 h
  rw [classNamed, bind_of_ok (show utf8 name p = _ from entry_again hp hj)]
  exact entry_again hp hi

theorem nameAndType_again {i : Nat} {name descriptor : String}
    (h : p.pairAt? i = some (name, descriptor)) :
    nameAndType name descriptor p = (.ok i, p) := by
  obtain ⟨j, k, hi, hj, hk⟩ := Pool.pairAt?_eq_some.1 h
  rw [nameAndType, bind_of_ok (show utf8 name p = _ from entry_again hp hj),
    bind_of_ok (show utf8 descriptor p = _ from entry_again hp hk)]
  exact entry_again hp hi

end Again

end Pooling

namespace PoolRequest

/-- **Whatever is asked for**, the table grows at its end if at all, and an index that is given
means the constant. -/
theorem adds_ask (q : PoolRequest) :
    Pooling.Adds (fun _ => True) q.ask fun p i => p.constantAt? i = some q := by
  -- each request is put together from requests for its parts, and the table is read back that way
  have hlasting : Pool.Lasting fun _ => True := fun _ _ _ h => h
  cases q with
  | utf8 text =>
    refine (Pooling.adds_utf8 hlasting text).imp ?_
    rintro p i ⟨-, hi⟩
    simp [Pool.constantAt?, hi]
  | integer n | float n | long n | double n =>
    refine (Pooling.adds_entry hlasting fun _ _ _ => .nil).imp ?_
    rintro p i ⟨-, hi⟩
    simp [Pool.constantAt?, hi]
  | string text => exact Pooling.adds_string hlasting text
  | classNamed name =>
    refine (Pooling.adds_classNamed hlasting name).imp ?_
    rintro p i ⟨-, hname⟩
    obtain ⟨j, hi, -⟩ := Pool.classAt?_eq_some.1 hname
    simp [Pool.constantAt?, hi, hname]
  | nameAndType name descriptor =>
    refine (Pooling.adds_nameAndType hlasting name descriptor).imp ?_
    rintro p i ⟨-, hpair⟩
    obtain ⟨j, k, hi, -⟩ := Pool.pairAt?_eq_some.1 hpair
    simp [Pool.constantAt?, hi, hpair]
  | member tag owner name descriptor => exact Pooling.adds_member tag owner name descriptor
  | callSite name descriptor => exact Pooling.adds_callSite name descriptor

/-- **Asking for a constant that is there** gives its index and changes nothing, however full the
pool is. -/
theorem ask_again {p : Pool} (hp : p.Closed) {i : Nat} {q : PoolRequest}
    (h : p.constantAt? i = some q) : q.ask p = (.ok i, p) := by
  unfold Pool.constantAt? at h
  -- every part is found where the entry refers to it, and then the entry itself
  cases hi : p.entryAt? i with
  | none => rw [hi] at h; cases h
  | some e =>
    rw [hi] at h
    cases e with
    | utf8 _ | integer _ | float _ | long _ | double _ =>
      obtain rfl := Option.some.inj h
      exact Pooling.entry_again hp hi
    | stringRef j =>
      obtain ⟨text, htext, rfl⟩ := Option.map_eq_some_iff.1 h
      have hj := Pool.textAt?_eq_some.1 htext
      rw [ask, Pooling.string, Pooling.bind_of_ok (show Pooling.utf8 text p = _ from
        Pooling.entry_again hp hj)]
      exact Pooling.entry_again hp hi
    | classRef j =>
      obtain ⟨name, hname, rfl⟩ := Option.map_eq_some_iff.1 h
      exact Pooling.classNamed_again hp hname
    | nameAndType j k =>
      obtain ⟨pair, hpair, rfl⟩ := Option.map_eq_some_iff.1 h
      exact Pooling.nameAndType_again hp hpair
    | member tag owner signature =>
      dsimp only at h
      split at h
      · next name pair hname hpair =>
        obtain rfl := Option.some.inj h
        rw [ask, Pooling.member, Pooling.bind_of_ok (Pooling.classNamed_again hp hname),
          Pooling.bind_of_ok (Pooling.nameAndType_again hp hpair)]
        exact Pooling.entry_again hp hi
      · cases h
    | callSite signature =>
      obtain ⟨pair, hpair, rfl⟩ := Option.map_eq_some_iff.1 h
      rw [ask, Pooling.callSite, Pooling.bind_of_ok (Pooling.nameAndType_again hp hpair)]
      exact Pooling.entry_again hp hi

/-- A request for six entries of two indexes each is the largest there could be. -/
theorem ask_of_room {p : Pool} (h : p.next + 12 ≤ Pool.limit) (q : PoolRequest) :
    ∃ i, (q.ask p).1 = .ok i := by
  suffices hneeds : ∃ n ≤ 12, Pooling.Needs n q.ask by
    obtain ⟨n, hn, hneeds⟩ := hneeds
    obtain ⟨i, hi, -⟩ := hneeds p (by omega)
    exact ⟨i, hi⟩
  cases q with
  | utf8 _ | integer _ | float _ | long _ | double _ =>
    exact ⟨2, by decide, Pooling.needs_entry _⟩
  | string text =>
    exact ⟨4, by decide, (Pooling.needs_entry _).bind fun _ => Pooling.needs_entry _⟩
  | classNamed name => exact ⟨4, by decide, Pooling.needs_classNamed name⟩
  | nameAndType name descriptor =>
    exact ⟨6, by decide, Pooling.needs_nameAndType name descriptor⟩
  | member tag owner name descriptor =>
    exact ⟨12, by decide, (Pooling.needs_classNamed owner).bind fun _ =>
      (Pooling.needs_nameAndType name descriptor).bind fun _ => Pooling.needs_entry _⟩
  | callSite name descriptor =>
    exact ⟨8, by decide, (Pooling.needs_nameAndType name descriptor).bind fun _ =>
      Pooling.needs_entry _⟩

end PoolRequest

/-! ### Sequences of requests -/

namespace Pool

/-- Answers requests one after the other, whether they fail or not. -/
def serve (p : Pool) : List PoolRequest → List (Except PoolError Nat) × Pool
  | [] => ([], p)
  | q :: rest => ((q.ask p).1 :: ((q.ask p).2.serve rest).1, ((q.ask p).2.serve rest).2)

/-- **A table in order**, after requests that were given some answers. -/
structure Orderly (requests : List PoolRequest) (answers : List (Except PoolError Nat))
    (p : Pool) : Prop where
  /-- Entries do not overlap. -/
  apart : p.table.Pairwise fun a b => a.1 + a.2.width ≤ b.1
  /-- Entries leave no gap between 1 and the next free index. -/
  covered : ∀ n, (1 ≤ n ∧ n < p.next) ↔ ∃ i e, (i, e) ∈ p.table ∧ i ≤ n ∧ n < i + e.width
  /-- No entry stands twice. -/
  single : ∀ i j e, (i, e) ∈ p.table → (j, e) ∈ p.table → i = j
  /-- An index that was given means the constant that was asked for. -/
  answered : ∀ (k : Nat) (q : PoolRequest) (i : Nat), requests[k]? = some q →
    answers[k]? = some (.ok i) → p.constantAt? i = some q
  /-- Two requests that were given indexes were given one index if and only if they were for one
  constant. -/
  distinct : ∀ (k l : Nat) (q q' : PoolRequest) (i j : Nat), requests[k]? = some q →
    requests[l]? = some q' → answers[k]? = some (.ok i) → answers[l]? = some (.ok j) →
    (i = j ↔ q = q')
  /-- A constant that is present is found at its index, and looking for it changes nothing. -/
  again : ∀ i q, p.constantAt? i = some q → q.ask p = (.ok i, p)
  /-- As long as twelve indexes are free, every request is given one. -/
  ample : p.next + 12 ≤ limit → ∀ q : PoolRequest, ∃ i, (q.ask p).1 = .ok i
  /-- References lead to earlier entries of the right kind. -/
  refs : ∀ i e, (i, e) ∈ p.table → List.Forall₂ (p.Leads i) e.refs e.refTags

theorem serve_append (p : Pool) (requests later : List PoolRequest) :
    (p.serve (requests ++ later)).2 = ((p.serve requests).2.serve later).2 := by
  induction requests generalizing p with
  | nil => rfl
  | cons q rest ih => exact ih _

/-- A whole sequence of requests leaves a pool in good order that extends the one before. -/
theorem Closed.serve {p : Pool} (hp : p.Closed) (requests : List PoolRequest) :
    (p.serve requests).2.Closed ∧ p.table <+: (p.serve requests).2.table := by
  induction requests generalizing p with
  | nil => exact ⟨hp, List.prefix_refl _⟩
  | cons q rest ih =>
    obtain ⟨hclosed, hgrows, -⟩ := q.adds_ask p hp trivial
    obtain ⟨hclosed', hgrows'⟩ := ih hclosed
    exact ⟨hclosed', hgrows.trans hgrows'⟩

/-- An index that was given along the way still means the constant at the end. -/
theorem Closed.answered {p : Pool} (hp : p.Closed) {requests : List PoolRequest} {k i : Nat}
    {q : PoolRequest} (hq : requests[k]? = some q)
    (hi : (p.serve requests).1[k]? = some (.ok i)) :
    (p.serve requests).2.constantAt? i = some q := by
  induction requests generalizing p k with
  | nil => cases hq
  | cons first rest ih =>
    obtain ⟨hclosed, -, hmeans⟩ := first.adds_ask p hp trivial
    -- an index given at once keeps its meaning while the rest is answered
    cases k with
    | zero =>
      obtain rfl := Option.some.inj hq
      exact constantAt?_mono (hclosed.serve rest).2 (hmeans i (Option.some.inj hi))
    | succ k => exact ih hclosed hq hi

/-- **The constant pool is an append-only, duplicate-free, closed table.** After any sequence of
requests to an empty pool, failed ones included, the table is in order, and more requests only add
to its end. -/
theorem serve_orderly (requests later : List PoolRequest) :
    Orderly requests (empty.serve requests).1 (empty.serve requests).2 ∧
      (empty.serve requests).2.table <+: (empty.serve (requests ++ later)).2.table := by
  have hclosed := (closed_empty.serve requests).1
  -- that asking again changes nothing also gives that constants have one index each
  have hagain : ∀ i q, (empty.serve requests).2.constantAt? i = some q →
      q.ask (empty.serve requests).2 = (.ok i, (empty.serve requests).2) :=
    fun i q h => q.ask_again hclosed h
  refine ⟨⟨pairwise_indexed _ _, ?_, fun i j e => hclosed.index_unique,
    fun k q i => closed_empty.answered, ?_, hagain, PoolRequest.ask_of_room, hclosed.refs⟩, ?_⟩
  · intro n
    rw [hclosed.next_eq]
    constructor
    · rintro ⟨hle, hlt⟩
      exact exists_of_lt_indexAfter hle hlt
    · rintro ⟨i, e, hmem, hle, hlt⟩
      obtain ⟨hfirst, hlast⟩ := mem_indexed hmem
      exact ⟨Nat.le_trans hfirst hle, Nat.lt_of_lt_of_le hlt hlast⟩
  · intro k l q q' i j hq hq' hi hj
    have hmeans := closed_empty.answered hq hi
    have hmeans' := closed_empty.answered hq' hj
    constructor
    · rintro rfl
      exact Option.some.inj (hmeans.symm.trans hmeans')
    · rintro rfl
      -- the constant can be asked for once more, and that has one answer
      have heq := (hagain i q hmeans).symm.trans (hagain j q hmeans')
      exact Except.ok.inj (Prod.mk.inj heq).1
  · rw [serve_append]
    exact (hclosed.serve later).2

end Pool

end Outliner
