import Mathlib.Data.List.Forall2
import Outliner.JType

/-!
# Reading descriptors that were put together

A generated routine gets its descriptor by joining the descriptors of the values it takes. Reading
the joined text gives the same types back, because a type is read from the front of a text without
looking at what follows it (`Descriptor.scan_append`), and what was read is what is written for it
(`Descriptor.scan_render`).

* `Signature.parse_ofSignature` — a joined descriptor is accepted when each part is.
-/

namespace Outliner

namespace Descriptor

/-- What is read from the front of a text is what would be written for it. -/
theorem scan_render {position : Nat} {text : List Char} {s : Scanned}
    (h : scan position text = .ok s) : text = MethodType.renderResult s.type ++ s.rest := by
  induction text generalizing position s with
  | nil => cases h
  | cons c rest ih =>
    unfold scan at h
    split at h
    · -- void
      next hc =>
      obtain rfl := Except.ok.inj h
      subst hc
      rfl
    split at h
    · -- a class: what follows its name is the semicolon that ends it
      next hc =>
      subst hc
      dsimp only at h
      split at h
      · cases h
      next c after hdrop =>
      split at h
      · cases h
      obtain rfl := Except.ok.inj h
      have hc : c = ';' := by
        have hhead := List.head?_dropWhile_not (fun c => decide (c ≠ ';')) rest
        rw [hdrop] at hhead
        simpa using hhead
      subst hc
      have happ := List.takeWhile_append_dropWhile (p := fun c => decide (c ≠ ';')) (l := rest)
      rw [hdrop] at happ
      simp only [MethodType.renderResult, FieldType.render]
      simpa using happ.symm
    split at h
    · -- an array
      next hc =>
      subst hc
      split at h
      · cases h
      · cases h
      next elem position' after hscan =>
      obtain rfl := Except.ok.inj h
      simpa [MethodType.renderResult, FieldType.render] using ih hscan
    split at h
    · -- a primitive type
      next p hp =>
      obtain rfl := Except.ok.inj h
      have hc : c = p.letter := by
        revert hp
        unfold Primitive.ofLetter?
        split <;> intro hp <;> cases hp <;> rfl
      simp [MethodType.renderResult, FieldType.render, hc]
    · cases h

/-- A type is read without looking at what follows it. -/
theorem scan_append {position : Nat} {text : List Char} {s : Scanned}
    (h : scan position text = .ok s) (extra : List Char) (position' : Nat) :
    ∃ q, scan position' (text ++ extra) = .ok ⟨s.type, q, s.rest ++ extra⟩ := by
  induction text generalizing position position' s with
  | nil => cases h
  | cons c rest ih =>
    rw [List.cons_append]
    unfold scan at h ⊢
    split at h
    · next hc =>
      obtain rfl := Except.ok.inj h
      rw [if_pos hc]
      exact ⟨_, rfl⟩
    next hV =>
    rw [if_neg hV]
    split at h
    · next hL =>
      rw [if_pos hL]
      dsimp only at h ⊢
      split at h
      · cases h
      next c' after hdrop =>
      split at h
      · cases h
      next hname =>
      obtain rfl := Except.ok.inj h
      -- the name ends before the added text begins
      have hdrop' :
          (rest ++ extra).dropWhile (fun c => decide (c ≠ ';')) = c' :: after ++ extra := by
        rw [List.dropWhile_append, hdrop]
        rfl
      have htake : (rest ++ extra).takeWhile (fun c => decide (c ≠ ';')) =
          rest.takeWhile (fun c => decide (c ≠ ';')) := by
        have hlong := congrArg List.length
          (List.takeWhile_append_dropWhile (p := fun c => decide (c ≠ ';')) (l := rest))
        rw [hdrop, List.length_append, List.length_cons] at hlong
        rw [List.takeWhile_append, if_neg (by omega)]
      rw [htake, hdrop', List.cons_append]
      simp only [hname]
      exact ⟨_, rfl⟩
    next hL =>
    rw [if_neg hL]
    split at h
    · next hB =>
      rw [if_pos hB]
      split at h
      · cases h
      · cases h
      next elem p after hscan =>
      obtain rfl := Except.ok.inj h
      obtain ⟨q, hq⟩ := ih hscan (position' + 1)
      rw [hq]
      exact ⟨_, rfl⟩
    next hB =>
    rw [if_neg hB]
    split at h
    · next p hp =>
      obtain rfl := Except.ok.inj h
      exact ⟨_, rfl⟩
    · cases h

/-- The text is that of one type, and nothing follows it. -/
def Reads (text : List Char) (type : Option FieldType) : Prop :=
  ∃ q, scan 0 text = .ok ⟨type, q, []⟩

theorem Reads.eq_render {text : List Char} {type : Option FieldType} (h : Reads text type) :
    text = MethodType.renderResult type := by
  obtain ⟨q, hq⟩ := h
  simpa using scan_render hq

/-- Argument types are read one after the other up to the closing parenthesis. -/
theorem scanArguments_flatten {texts : List (List Char)} {types : List FieldType}
    (h : List.Forall₂ (fun text t => Reads text (some t)) texts types) (rest : List Char)
    (position : Nat) :
    ∃ q, scanArguments position (texts.flatten ++ ')' :: rest) = .ok (types, q, rest) := by
  induction h generalizing position with
  | nil =>
    unfold scanArguments
    exact ⟨_, rfl⟩
  | @cons text t texts types hread _ ih =>
    obtain ⟨q, hq⟩ := hread
    obtain ⟨q', hq'⟩ := scan_append hq (texts.flatten ++ ')' :: rest) position
    obtain ⟨q'', hq''⟩ := ih q'
    rw [List.flatten_cons, List.append_assoc]
    rw [List.nil_append] at hq'
    -- no type starts with the parenthesis that closes the list
    cases text with
    | nil => cases hq
    | cons c text =>
      have hc : c ≠ ')' := by
        rintro rfl
        unfold scan at hq
        simp [Primitive.ofLetter?] at hq
      rw [List.cons_append] at hq' ⊢
      unfold scanArguments
      rw [if_neg hc]
      split
      · next hscan => cases hscan.symm.trans hq'
      · next hscan => cases hscan.symm.trans hq'
      · next hscan =>
        cases hscan.symm.trans hq'
        rw [hq'']
        exact ⟨_, rfl⟩

/-- A method descriptor is read part by part. -/
theorem scanMethod_of_reads {texts : List (List Char)} {fields : List FieldType}
    (hargs : List.Forall₂ (fun text t => Reads text (some t)) texts fields) {result : List Char}
    {type : Option FieldType} (hresult : Reads result type) :
    scanMethod ('(' :: texts.flatten ++ ')' :: result) = .ok ⟨fields, type⟩ := by
  obtain ⟨q, hq⟩ := scanArguments_flatten hargs result 1
  obtain ⟨p, hp⟩ := hresult
  obtain ⟨p', hp'⟩ := scan_append hp [] q
  rw [List.append_nil] at hp'
  rw [List.cons_append]
  unfold scanMethod
  simp only [hq, hp', List.nil_append]

end Descriptor

namespace JType

theorem parse_eq_ok {text : String} {u : JType} :
    JType.parse text = .ok u ↔ ∃ type, Descriptor.Reads text.toList type ∧ u = ofResult type := by
  unfold JType.parse parseField Descriptor.scanField Descriptor.Reads
  constructor
  · intro h
    split at h
    · cases h
    next type htype =>
    split at htype
    · cases htype
    · next q hq =>
      obtain rfl := Except.ok.inj htype
      exact ⟨_, ⟨q, hq⟩, (Except.ok.inj h).symm⟩
    · cases htype
  · rintro ⟨type, ⟨q, hq⟩, rfl⟩
    rw [hq]
    rfl

/-- The type as which a value is passed in a call: null counts as an object. -/
def passed : JType → JType
  | null => anyObject
  | t => t

theorem eq_of_render_eq_letter {type : Option FieldType} {p : Primitive}
    (h : MethodType.renderResult type = [p.letter]) : type = some (.prim p) := by
  rcases type with _ | field
  · cases p <;> cases h
  cases field with
  | prim q =>
    have hq : q = p := by
      have := congrArg Primitive.ofLetter? (List.cons.inj h).1
      simpa using this
    rw [hq]
  | object name => cases p <;> cases h
  | array elem => cases p <;> cases h

theorem eq_of_render_eq_object {type : Option FieldType} {name : List Char}
    (h : MethodType.renderResult type = 'L' :: name ++ [';']) : type = some (.object name) := by
  rcases type with _ | field
  · cases h
  cases field with
  | prim p => cases p <;> cases h
  | object name' =>
    have hname : name' = name := by simpa [MethodType.renderResult, FieldType.render] using h
    rw [hname]
  | array elem => cases h

theorem eq_of_render_eq_array {type : Option FieldType} {component : List Char}
    (h : MethodType.renderResult type = '[' :: component) :
    ∃ elem, type = some (.array elem) ∧ elem.render = component := by
  rcases type with _ | field
  · cases h
  cases field with
  | prim p => cases p <;> cases h
  | object name => cases h
  | array elem => exact ⟨elem, rfl, (List.cons.inj h).2⟩

/-- **A type whose descriptor is accepted is read back from it.** -/
theorem reads_descriptor {t u : JType} (ht : t.isDefinite) (h : JType.parse t.descriptor = .ok u) :
    ∃ field, Descriptor.Reads t.descriptor.toList (some field) ∧ ofField field = t.passed := by
  obtain ⟨type, hread, -⟩ := parse_eq_ok.1 h
  have htext := hread.eq_render
  cases t with
  | prim p =>
    obtain rfl := eq_of_render_eq_letter (p := p) (by simpa [descriptor, text] using htext.symm)
    exact ⟨_, hread, rfl⟩
  | array component =>
    obtain ⟨elem, rfl, hcomp⟩ := eq_of_render_eq_array
      (show MethodType.renderResult type = '[' :: component.toList by
        simpa [descriptor, text] using htext.symm)
    exact ⟨_, hread, by simp [ofField, hcomp, passed]⟩
  | object name =>
    obtain rfl := eq_of_render_eq_object
      (show MethodType.renderResult type = 'L' :: name.toList ++ [';'] by
        simpa [descriptor, text] using htext.symm)
    exact ⟨_, hread, by simp [ofField, passed]⟩
  | null =>
    obtain rfl := eq_of_render_eq_object
      (show MethodType.renderResult type = 'L' :: objectClass.toList ++ [';'] by
        simpa [descriptor, text, anyObject] using htext.symm)
    exact ⟨_, hread, by simp [ofField, passed, anyObject]⟩
  | void | method _ | top | uninitialized _ _ => cases ht

end JType

namespace Signature

theorem toList_descriptor_ofSignature (args : List JType) (result : JType) :
    (JType.ofSignature args result).descriptor.toList =
      '(' :: (args.map (·.descriptor.toList)).flatten ++ ')' :: result.descriptor.toList := by
  change ("(" ++ String.join (args.map JType.descriptor) ++ ")" ++ result.descriptor).toList = _
  simp [String.toList_join, List.flatMap_def, Function.comp_def]

theorem parse_eq_ok {text : String} {s : Signature} :
    Signature.parse text = .ok s ↔ ∃ m, Descriptor.scanMethod text.toList = .ok m ∧
      s = ⟨m.args.map JType.ofField, JType.ofResult m.result⟩ := by
  unfold Signature.parse readMethod
  cases Descriptor.scanMethod text.toList with
  | error fault => simp [Except.map]
  | ok m => simp [Except.map, eq_comm]

/-- **A signature put together from types whose descriptors are accepted is accepted**, and gives
the types as they are passed. -/
theorem parse_ofSignature {args : List JType} {result : JType}
    (hargs : ∀ t ∈ args, t.isDefinite ∧ ∃ u, JType.parse t.descriptor = .ok u)
    (hdefinite : result.isDefinite) (hresult : ∃ u, JType.parse result.descriptor = .ok u) :
    Signature.parse (JType.ofSignature args result).descriptor =
      .ok ⟨args.map JType.passed, result.passed⟩ := by
  have hfields : ∃ fields, List.Forall₂ (fun text t => Descriptor.Reads text (some t))
      (args.map fun t => t.descriptor.toList) fields ∧
      fields.map JType.ofField = args.map JType.passed := by
    induction args with
    | nil => exact ⟨[], .nil, rfl⟩
    | cons t args ih =>
      obtain ⟨fields, hall, hmap⟩ := ih fun t ht => hargs t (List.mem_cons_of_mem _ ht)
      obtain ⟨ht, u, hu⟩ := hargs t List.mem_cons_self
      obtain ⟨field, hread, hfield⟩ := JType.reads_descriptor ht hu
      exact ⟨field :: fields, .cons hread hall, by simp [hfield, hmap]⟩
  obtain ⟨fields, hall, hmap⟩ := hfields
  obtain ⟨u, hu⟩ := hresult
  obtain ⟨field, hread, hfield⟩ := JType.reads_descriptor hdefinite hu
  refine parse_eq_ok.2 ⟨⟨fields, some field⟩, ?_, by simp [hmap, hfield, JType.ofResult]⟩
  rw [toList_descriptor_ofSignature]
  exact Descriptor.scanMethod_of_reads hall hread

end Signature

end Outliner
