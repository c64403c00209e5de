import Mathlib.Algebra.BigOperators.Group.Finset.Basic
import Mathlib.Algebra.Order.BigOperators.Group.Finset
import Mathlib.Data.List.Nodup
import Outliner.Proofs.Pools

/-!
# How much a constant pool can hold

A pool is written out with a count in front of it, which is one more than the highest index in
use and stands in a field of 16 bits. The limit of a pool is on its indexes: the last one it gives
out is 65535, and the count is then 65536, one more than the field can hold.

* `Pool.count_fits_iff` — after any sequence of requests the count is at most 65536, and one more
  request is refused exactly when the constants it lacks would take the count past 65536. So the
  count fits its field, and what does not fit is refused, unless the count comes to 65536 exactly.
* `Pool.count_overruns_integers` — it does come to that.

A request may lack several constants (`PoolRequest.parts`), and what it costs depends on which of
them the pool has already (`Pool.cost`). Its steps are followed by `Pooling.Takes`: a step that
succeeds pays for its own constants and leaves the others to be paid for by the next one.
-/

namespace Outliner

/-! ### What a request costs -/

namespace PoolRequest

/-- A class and the text it refers to. -/
def classParts (name : String) : Finset PoolRequest :=
  {utf8 name} ∪ {classNamed name}

/-- A name with a descriptor and the two texts they refer to. -/
def pairParts (name descriptor : String) : Finset PoolRequest :=
  {utf8 name} ∪ ({utf8 descriptor} ∪ {nameAndType name descriptor})

/-- The constants a pool has to have for one of them to be in it, that one included. -/
def parts : PoolRequest → Finset PoolRequest
  | string text => {utf8 text} ∪ {string text}
  | classNamed name => classParts name
  | nameAndType name descriptor => pairParts name descriptor
  | member tag owner name descriptor =>
    classParts owner ∪ (pairParts name descriptor ∪ {member tag owner name descriptor})
  | callSite name descriptor => pairParts name descriptor ∪ {callSite name descriptor}
  | q => {q}

/-- The number of indexes a constant takes, apart from those of its parts. -/
def width : PoolRequest → Nat
  | long _ | double _ => 2
  | member tag _ _ _ => if tag.toNat = 5 || tag.toNat = 6 then 2 else 1
  | _ => 1

end PoolRequest

namespace Pool

/-- A constant is in the pool. -/
def Has (p : Pool) (q : PoolRequest) : Prop :=
  ∃ a ∈ p.table, p.constantAt? a.1 = some q

instance (p : Pool) (q : PoolRequest) : Decidable (p.Has q) :=
  inferInstanceAs (Decidable (∃ a ∈ p.table, p.constantAt? a.1 = some q))

/-- **The number of indexes that constants take** in a pool that may have some of them. -/
def cost (p : Pool) (qs : Finset PoolRequest) : Nat :=
  ∑ q ∈ qs with ¬ p.Has q, q.width

variable {p p' : Pool} {q : PoolRequest} {qs rs : Finset PoolRequest}

theorem has_iff : p.Has q ↔ ∃ i, p.constantAt? i = some q := by
  constructor
  · rintro ⟨a, -, ha⟩
    exact ⟨a.1, ha⟩
  · rintro ⟨i, hi⟩
    cases he : p.entryAt? i with
    | none => simp [constantAt?, he] at hi
    | some e => exact ⟨(i, e), entryAt?_eq_some.1 he, hi⟩

theorem cost_of_has (h : p.Has q) : p.cost {q} = 0 := by
  simp [cost, Finset.filter_singleton, h]

theorem cost_of_not_has (h : ¬ p.Has q) : p.cost {q} = q.width := by
  simp [cost, Finset.filter_singleton, h]

theorem cost_le_union : p.cost qs ≤ p.cost (qs ∪ rs) :=
  Finset.sum_le_sum_of_subset (Finset.filter_subset_filter _ Finset.subset_union_left)

/-- What is paid for first is not paid for again. -/
theorem cost_union (h : ∀ q, p'.Has q ↔ p.Has q ∨ q ∈ qs) :
    p.cost (qs ∪ rs) = p.cost qs + p'.cost rs := by
  have hdisjoint : Disjoint (qs.filter fun q => ¬ p.Has q) (rs.filter fun q => ¬ p'.Has q) := by
    refine Finset.disjoint_left.2 fun q hq hq' => ?_
    exact (Finset.mem_filter.1 hq').2 ((h q).2 (.inr (Finset.mem_filter.1 hq).1))
  have hunion : (qs ∪ rs).filter (fun q => ¬ p.Has q) =
      (qs.filter fun q => ¬ p.Has q) ∪ rs.filter fun q => ¬ p'.Has q := by
    ext q
    simp only [Finset.mem_filter, Finset.mem_union, h]
    tauto
  rw [cost, hunion, Finset.sum_union hdisjoint, cost, cost]

/-- Every entry means something, and the last index is not passed. -/
structure Meaningful (p : Pool) : Prop where
  means : ∀ i e, (i, e) ∈ p.table → ∃ q, p.constantAt? i = some q
  within : p.next ≤ limit

theorem meaningful_empty : Meaningful .empty where
  means := by
    intro i e h
    cases h
  within := by decide

/-- A pool that has grown by one entry has grown by one constant. -/
theorem has_of_append {e : PoolEntry} (hs : p.Meaningful) (hq : p'.constantAt? p.next = some q)
    (htable : p'.table = p.table ++ [(p.next, e)]) (r : PoolRequest) :
    p'.Has r ↔ p.Has r ∨ r ∈ ({q} : Finset PoolRequest) := by
  have hgrows : p.table <+: p'.table := htable ▸ List.prefix_append _ _
  rw [has_iff, has_iff, Finset.mem_singleton]
  constructor
  · rintro ⟨i, hi⟩
    obtain ⟨a, ha, hai⟩ := has_iff.2 ⟨i, hi⟩
    rw [htable] at ha
    rcases List.mem_append.1 ha with hold | hnew
    · -- an old entry meant something, and still means that
      obtain ⟨r', hr'⟩ := hs.means a.1 a.2 hold
      obtain rfl := Option.some.inj ((constantAt?_mono hgrows hr').symm.trans hai)
      exact .inl ⟨a.1, hr'⟩
    · rw [List.mem_singleton.1 hnew, hq] at hai
      exact .inr (Option.some.inj hai).symm
  · rintro (⟨i, hi⟩ | rfl)
    · exact ⟨i, constantAt?_mono hgrows hi⟩
    · exact ⟨p.next, hq⟩

theorem Meaningful.append {e : PoolEntry} (hs : p.Meaningful) (hq : p'.constantAt? p.next = some q)
    (htable : p'.table = p.table ++ [(p.next, e)]) (hroom : p'.next ≤ limit) : p'.Meaningful where
  means := by
    intro i e' hmem
    rw [htable] at hmem
    rcases List.mem_append.1 hmem with hold | hnew
    · obtain ⟨r, hr⟩ := hs.means i e' hold
      exact ⟨r, constantAt?_mono (htable ▸ List.prefix_append _ _) hr⟩
    · obtain ⟨rfl, -⟩ := Prod.mk.inj (List.mem_singleton.1 hnew)
      exact ⟨q, hq⟩
  within := hroom

/-- The pool after an entry that it did not have. -/
def push (p : Pool) (e : PoolEntry) : Pool :=
  ⟨p.entries.push e, p.indexes.insert e p.next, p.next + e.width⟩

end Pool

/-! ### Requests step by step -/

namespace Pooling

open Pool (limit)

/-- **Work that pays for constants**: it fails if and only if they do not fit, and otherwise they
are in the pool afterwards, at their cost. -/
def Takes (pre : Pool → Prop) (parts : Finset PoolRequest) (work : Pooling Nat) : Prop :=
  ∀ p : Pool, p.Closed → p.Meaningful → pre p → (work p).2.Meaningful ∧
    (p.next + p.cost parts ≤ limit → (∃ i, (work p).1 = .ok i) ∧
      (work p).2.next = p.next + p.cost parts ∧ ∀ q, (work p).2.Has q ↔ p.Has q ∨ q ∈ parts) ∧
    (limit < p.next + p.cost parts → (work p).1 = .error .overflow)

variable {pre : Pool → Prop} {mid : Pool → Nat → Prop} {x : Pooling Nat} {f : Nat → Pooling Nat}
  {qs rs : Finset PoolRequest}

theorem Takes.bind (hx : Takes pre qs x) (hadds : Adds pre x mid)
    (hf : ∀ i, Takes (fun p => mid p i) rs (f i)) : Takes pre (qs ∪ rs) (x >>= f) := by
  intro p hp hs hpre
  obtain ⟨hmeaningful, hok, herror⟩ := hx p hp hs hpre
  obtain ⟨hclosed, -, hmid⟩ := hadds p hp hpre
  have hle : p.cost qs ≤ p.cost (qs ∪ rs) := Pool.cost_le_union
  rw [bind_run]
  rcases hrun : x p with ⟨e | i, p'⟩ <;> rw [hrun] at hmeaningful hok herror hclosed hmid
  · -- the first step has failed, so its own constants do not fit
    refine ⟨hmeaningful, fun hroom => ?_, fun _ => ?_⟩
    · obtain ⟨⟨i, hi⟩, -⟩ := hok (by omega)
      cases hi
    · cases e
      rfl
  · -- the first step has paid, and what the second one costs is counted in the pool it has left
    have hroom : p.next + p.cost qs ≤ limit := by
      by_contra hlt
      cases herror (Nat.not_le.1 hlt)
    obtain ⟨-, hnext, hhas⟩ := hok hroom
    obtain ⟨hmeaningful', hok', herror'⟩ := hf i p' hclosed hmeaningful (hmid i rfl)
    rw [p.cost_union hhas, ← Nat.add_assoc]
    dsimp only at hnext
    rw [hnext] at hok' herror'
    refine ⟨hmeaningful', fun hfits => ?_, herror'⟩
    obtain ⟨hi, hnext', hhas'⟩ := hok' hfits
    refine ⟨hi, hnext', fun q => ?_⟩
    rw [hhas' q, hhas q, Finset.mem_union, or_assoc]

/-- Asking for the last entry of a constant whose other parts are there. -/
theorem takes_entry {q : PoolRequest} {e : PoolEntry} (hwidth : q.width = e.width)
    (hask : ∀ p : Pool, p.Closed → pre p → q.ask p = entry e p) : Takes pre {q} (entry e) := by
  intro p hp hs hpre
  obtain ⟨-, -, hmeans⟩ := q.adds_ask p hp trivial
  have hagain : ∀ i, p.constantAt? i = some q → entry e p = (.ok i, p) :=
    fun i hi => (hask p hp hpre).symm.trans (q.ask_again hp hi)
  rw [hask p hp hpre] at hmeans
  cases hget : p.indexes.get? e with
  | some index =>
    -- the entry is there, so the constant is, and nothing is paid
    have hrun : entry e p = (.ok index, p) := hp.intern_of_mem ((hp.get?_iff e index).1 hget)
    rw [hrun] at hmeans ⊢
    have hhas : p.Has q := Pool.has_iff.2 ⟨index, hmeans index rfl⟩
    rw [Pool.cost_of_has hhas]
    refine ⟨hs, fun _ => ⟨⟨index, rfl⟩, rfl, fun r => ?_⟩, fun hlt => ?_⟩
    · rw [Finset.mem_singleton]
      exact ⟨.inl, fun h => h.elim id fun heq => heq ▸ hhas⟩
    · exact absurd hs.within (Nat.not_le.2 hlt)
  | none =>
    have hrun : entry e p =
        if p.next + e.width > limit then (.error .overflow, p) else (.ok p.next, p.push e) := by
      change Pool.intern e p = _
      rw [Pool.intern, hget]
      rfl
    -- a constant that is there would be found again without the pool getting larger
    have hno : ¬ p.Has q := by
      intro hhas
      obtain ⟨i, hi⟩ := Pool.has_iff.1 hhas
      have heq := hrun.symm.trans (hagain i hi)
      split at heq
      · cases (Prod.mk.inj heq).1
      · have hnext : p.next + e.width = p.next := congrArg Pool.next (Prod.mk.inj heq).2
        have hpos := e.width_pos
        omega
    rw [Pool.cost_of_not_has hno, hwidth]
    rw [hrun] at hmeans ⊢
    by_cases hroom : p.next + e.width > limit
    · rw [if_pos hroom]
      exact ⟨hs, fun hle => absurd hle (Nat.not_le.2 hroom), fun _ => rfl⟩
    · rw [if_neg hroom] at hmeans ⊢
      have hq := hmeans p.next rfl
      have htable : (p.push e).table = p.table ++ [(p.next, e)] := hp.indexed_push e
      exact ⟨hs.append hq htable (Nat.not_lt.1 hroom),
        fun _ => ⟨⟨p.next, rfl⟩, rfl, Pool.has_of_append hs hq htable⟩, fun hlt => absurd hlt hroom⟩

theorem takes_utf8 (text : String) : Takes pre {.utf8 text} (utf8 text) :=
  takes_entry rfl fun _ _ _ => rfl

theorem takes_classNamed (hpre : Pool.Lasting pre) (name : String) :
    Takes pre (PoolRequest.classParts name) (classNamed name) := by
  refine (takes_utf8 name).bind (adds_utf8 hpre name) fun j => takes_entry rfl ?_
  rintro p hp ⟨-, hj⟩
  exact bind_of_ok (entry_again hp hj)

theorem takes_nameAndType (hpre : Pool.Lasting pre) (name descriptor : String) :
    Takes pre (PoolRequest.pairParts name descriptor) (nameAndType name descriptor) := by
  refine (takes_utf8 name).bind (adds_utf8 hpre name) fun j => ?_
  have hname := lasting_entryAt? hpre j (.utf8 name)
  refine (takes_utf8 descriptor).bind (adds_utf8 hname descriptor) fun k => takes_entry rfl ?_
  rintro p hp ⟨⟨-, hj⟩, hk⟩
  exact (bind_of_ok (entry_again hp hj)).trans (bind_of_ok (entry_again hp hk))

end Pooling

/-- **What a request does with the room there is.** -/
theorem PoolRequest.takes_ask (q : PoolRequest) : Pooling.Takes (fun _ => True) q.parts q.ask := by
  have hlasting : Pool.Lasting fun _ => True := fun _ _ _ h => h
  cases q with
  | utf8 _ | integer _ | float _ | long _ | double _ =>
    exact Pooling.takes_entry rfl fun _ _ _ => rfl
  | string text =>
    refine (Pooling.takes_utf8 text).bind (Pooling.adds_utf8 hlasting text) fun j =>
      Pooling.takes_entry rfl ?_
    rintro p hp ⟨-, hj⟩
    exact Pooling.bind_of_ok (Pooling.entry_again hp hj)
  | classNamed name => exact Pooling.takes_classNamed hlasting name
  | nameAndType name descriptor => exact Pooling.takes_nameAndType hlasting name descriptor
  | member tag owner name descriptor =>
    refine (Pooling.takes_classNamed hlasting owner).bind (Pooling.adds_classNamed hlasting owner)
      fun c => ?_
    -- what was said about the class has to last while the name and type are asked for
    have hclass : Pool.Lasting fun p => True ∧ p.classAt? c = some owner := by
      rintro p p' hgrows ⟨-, hc⟩
      exact ⟨trivial, Pool.classAt?_mono hgrows hc⟩
    refine (Pooling.takes_nameAndType hclass name descriptor).bind
      (Pooling.adds_nameAndType hclass name descriptor) fun s => Pooling.takes_entry rfl ?_
    rintro p hp ⟨⟨-, hc⟩, hs⟩
    exact (Pooling.bind_of_ok (Pooling.classNamed_again hp hc)).trans
      (Pooling.bind_of_ok (Pooling.nameAndType_again hp hs))
  | callSite name descriptor =>
    refine (Pooling.takes_nameAndType hlasting name descriptor).bind
      (Pooling.adds_nameAndType hlasting name descriptor) fun s => Pooling.takes_entry rfl ?_
    rintro p hp ⟨-, hs⟩
    exact Pooling.bind_of_ok (Pooling.nameAndType_again hp hs)

/-! ### Sequences of requests -/

namespace Pool

variable {p : Pool}

theorem Meaningful.serve (hp : p.Closed) (hs : p.Meaningful) (requests : List PoolRequest) :
    (p.serve requests).2.Meaningful := by
  induction requests generalizing p with
  | nil => exact hs
  | cons q rest ih => exact ih (q.adds_ask p hp trivial).1 (q.takes_ask p hp hs trivial).1

/-- The largest number that a field of 16 bits holds. -/
def maxCount : Nat := 65535

/-- The pool that requests to an empty one leave, failed ones included. -/
def holding (requests : List PoolRequest) : Pool :=
  (empty.serve requests).2

/-- **When the count of a pool fits its field.** After any sequence of requests the count is at most
one more than the field holds, and a further request is refused if and only if it would take the
count past that. So the count fits, and every request that would make it too large is refused,
unless the count is just one too large before the request or after it. -/
theorem count_fits_iff (requests : List PoolRequest) (q : PoolRequest) :
    (holding requests).next ≤ maxCount + 1 ∧
    ((q.ask (holding requests)).1 = .error .overflow ↔
      maxCount + 1 < (holding requests).next + (holding requests).cost q.parts) ∧
    (((holding requests).next ≤ maxCount ∧
        (maxCount < (holding requests).next + (holding requests).cost q.parts →
          (q.ask (holding requests)).1 = .error .overflow)) ↔
      (holding requests).next ≠ maxCount + 1 ∧
        (holding requests).next + (holding requests).cost q.parts ≠ maxCount + 1) := by
  have hclosed : (holding requests).Closed := (closed_empty.serve requests).1
  have hmeaningful : (holding requests).Meaningful := meaningful_empty.serve closed_empty requests
  generalize holding requests = p at hclosed hmeaningful
  obtain ⟨-, hok, herror⟩ := q.takes_ask p hclosed hmeaningful trivial
  have hwithin := hmeaningful.within
  have hlimit : limit = maxCount + 1 := rfl
  rw [hlimit] at hok herror hwithin
  have hiff : (q.ask p).1 = .error .overflow ↔ maxCount + 1 < p.next + p.cost q.parts := by
    refine ⟨fun h => Nat.not_le.1 fun hroom => ?_, herror⟩
    obtain ⟨⟨i, hi⟩, -⟩ := hok hroom
    rw [hi] at h
    cases h
  refine ⟨hwithin, hiff, ?_⟩
  -- the limit and the field differ by one, so only a count of just that much tells them apart
  rw [hiff]
  omega

/-- Different numbers that a pool does not have are all given indexes, if it has room for them. -/
theorem serve_integers (hp : p.Closed) (hs : p.Meaningful) {numbers : List Int32}
    (hnodup : numbers.Nodup) (hnew : ∀ n ∈ numbers, ¬ p.Has (.integer n))
    (hroom : p.next + numbers.length ≤ limit) :
    (∀ answer ∈ (p.serve (numbers.map .integer)).1, ∃ i, answer = .ok i) ∧
      (p.serve (numbers.map .integer)).2.next = p.next + numbers.length := by
  induction numbers generalizing p with
  | nil => exact ⟨nofun, rfl⟩
  | cons n rest ih =>
    obtain ⟨hn, hrest⟩ := List.nodup_cons.1 hnodup
    have hcost : p.cost (PoolRequest.integer n).parts = 1 :=
      cost_of_not_has (hnew n List.mem_cons_self)
    rw [List.length_cons] at hroom
    obtain ⟨hmeaningful, hok, -⟩ := (PoolRequest.integer n).takes_ask p hp hs trivial
    rw [hcost] at hok
    obtain ⟨hanswer, hnext, hhas⟩ := hok (by omega)
    -- the others are still missing afterwards, since they are different from the first one
    obtain ⟨hall, hend⟩ := ih ((PoolRequest.integer n).adds_ask p hp trivial).1 hmeaningful hrest
      (fun m hm h => by
        rcases (hhas _).1 h with hold | heq
        · exact hnew m (List.mem_cons_of_mem _ hm) hold
        · obtain rfl := PoolRequest.integer.inj (Finset.mem_singleton.1 heq)
          exact hn hm)
      (by omega)
    refine ⟨?_, ?_⟩
    · exact List.forall_mem_cons.2 ⟨hanswer, hall⟩
    · rw [List.map_cons, Pool.serve, hend, hnext, List.length_cons]
      omega

/-- The numbers below 65535 are all given indexes, and the count of the pool is then 65536. -/
theorem count_overruns_integers :
    (∀ answer ∈ (empty.serve ((List.range maxCount).map fun n => .integer (Int32.ofNat n))).1,
      ∃ i, answer = .ok i) ∧
    (empty.serve ((List.range maxCount).map fun n => .integer (Int32.ofNat n))).2.next =
      maxCount + 1 := by
  have hnodup : ((List.range maxCount).map Int32.ofNat).Nodup := by
    refine List.Nodup.map_on (fun m hm n hn heq => ?_) List.nodup_range
    rw [List.mem_range, maxCount] at hm hn
    have hint := congrArg Int32.toInt heq
    rw [Int32.toInt_ofNat_of_lt (by omega), Int32.toInt_ofNat_of_lt (by omega)] at hint
    exact Int.ofNat.inj hint
  have hnew : ∀ n ∈ (List.range maxCount).map Int32.ofNat, ¬ empty.Has (.integer n) := by
    rintro n - ⟨a, ha, -⟩
    cases ha
  have hlength : ((List.range maxCount).map Int32.ofNat).length = maxCount := by
    rw [List.length_map, List.length_range]
  have hserve := serve_integers closed_empty meaningful_empty hnodup hnew (by rw [hlength]; decide)
  have hnext : empty.next = 1 := rfl
  rw [List.map_map, Function.comp_def, hlength, hnext, Nat.add_comm] at hserve
  exact hserve

end Pool

end Outliner
