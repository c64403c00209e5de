import Outliner.Proofs.Descriptors

/-!
# The grammar of descriptors

`FieldText` and `MethodText` say which texts are descriptors, without a word about how they are
read: a field type is one of eight letters, `L` name `;`, or `[` followed by a field type, and a
method descriptor is a list of field types in parentheses followed by a result. Reading accepts
exactly these texts (`descriptors_exact`).

Reading is sound because a scan gives back what it consumed (`Descriptor.scan_render`), and complete
because every text of the grammar is scanned to its end, whatever follows it
(`Descriptor.FieldText.exists_reads`). That the parts of a method descriptor are determined by the
text needs no argument of its own: they are what the scan finds.

A text can also be taken byte by byte (`Descriptor.bytewise`). The grammar names nothing but
characters of one byte, so the parts of a descriptor end at such a character, and the bytes of the
others stay together (`Descriptor.exists_split`).
-/

namespace Outliner

namespace Descriptor

/-! ### The grammar -/

/-- The text of a field type. -/
inductive FieldText : List Char → Prop where
  | prim (p : Primitive) : FieldText [p.letter]
  | object {name : List Char} (nonempty : name ≠ []) (free : ';' ∉ name) :
    FieldText ('L' :: name ++ [';'])
  | array {elem : List Char} (elem_text : FieldText elem) : FieldText ('[' :: elem)

/-- The text of a result: a field type, or `V` when there is none. -/
def ResultText (text : List Char) : Prop :=
  FieldText text ∨ text = ['V']

/-- The text of a method descriptor, taken apart into its argument types and its result. -/
structure MethodText (args : List (List Char)) (result text : List Char) : Prop where
  args_text : ∀ arg ∈ args, FieldText arg
  result_text : ResultText result
  text_eq : text = '(' :: args.flatten ++ ')' :: result

/-! ### Every text of the grammar is read -/

section Until

variable {c : Char} {name rest : List Char}

theorem forall_ne_of_not_mem (h : c ∉ name) : ∀ d ∈ name, decide (d ≠ c) = true := fun _ hd =>
  decide_eq_true fun heq => h (heq ▸ hd)

theorem takeWhile_ne_append (h : c ∉ name) :
    (name ++ c :: rest).takeWhile (fun d => decide (d ≠ c)) = name := by
  rw [List.takeWhile_append_of_pos (forall_ne_of_not_mem h)]
  simp

theorem dropWhile_ne_append (h : c ∉ name) :
    (name ++ c :: rest).dropWhile (fun d => decide (d ≠ c)) = c :: rest := by
  rw [List.dropWhile_append_of_pos (forall_ne_of_not_mem h)]
  simp

end Until

/-- A field type is read to its end. -/
theorem FieldText.exists_reads {text : List Char} (h : FieldText text) :
    ∃ t, Reads text (some t) := by
  -- the position does not matter for what is read, so it is left open in the induction
  suffices h' : ∀ position, ∃ t q, scan position text = .ok ⟨some t, q, []⟩ from h' 0
  induction h with
  | prim p =>
    intro position
    refine ⟨.prim p, position + 1, ?_⟩
    unfold scan
    rw [if_neg (by cases p <;> decide), if_neg (by cases p <;> decide),
      if_neg (by cases p <;> decide), Primitive.ofLetter?_letter]
  | @object name nonempty free =>
    intro position
    refine ⟨.object name, position + 2 + (String.ofList name).utf8ByteSize, ?_⟩
    rw [List.cons_append]
    unfold scan
    rw [if_neg (by decide), if_pos rfl]
    dsimp only
    rw [takeWhile_ne_append free, dropWhile_ne_append free]
    simp [nonempty]
  | array _ ih =>
    intro position
    obtain ⟨t, q, hq⟩ := ih (position + 1)
    refine ⟨.array t, q, ?_⟩
    unfold scan
    rw [if_neg (by decide), if_neg (by decide), if_pos rfl, hq]

/-- A result is read to its end. -/
theorem ResultText.exists_reads {text : List Char} (h : ResultText text) :
    ∃ type, Reads text type := by
  rcases h with h | rfl
  · obtain ⟨t, ht⟩ := h.exists_reads
    exact ⟨some t, ht⟩
  · exact ⟨none, 1, rfl⟩

/-! ### Whatever is read is a text of the grammar -/

/-- A field type is never written as the absence of one. -/
theorem render_ne_void (t : FieldType) : t.render ≠ ['V'] := by
  intro h
  cases t with
  | prim p => cases p <;> cases h
  | object name => cases h
  | array elem => cases h

/-- What a scan gives has a text of the grammar. -/
theorem resultText_of_scan {position : Nat} {text : List Char} {s : Scanned}
    (h : scan position text = .ok s) : ResultText (MethodType.renderResult s.type) := by
  induction text generalizing position s with
  | nil => cases h
  | cons c rest ih =>
    unfold scan at h
    split at h
    · obtain rfl := Except.ok.inj h
      exact .inr rfl
    split at h
    -- a class, whose name is not empty and ends at the first semicolon
    · dsimp only at h
      split at h
      · cases h
      split at h
      · cases h
      next hname =>
      obtain rfl := Except.ok.inj h
      refine .inl (.object (by simpa using hname) fun hmem => ?_)
      simpa using List.all_eq_true.1 List.all_takeWhile _ hmem
    split at h
    -- an array, the elements of which are not void
    · split at h
      · cases h
      · cases h
      next elem q after hscan =>
      obtain rfl := Except.ok.inj h
      exact .inl (.array ((ih hscan).resolve_right (render_ne_void elem)))
    split at h
    · next p hp =>
      obtain rfl := Except.ok.inj h
      exact .inl (.prim p)
    · cases h

/-- The text of a field type that was read is one of the grammar. -/
theorem fieldText_of_scan {position : Nat} {text : List Char} {s : Scanned} {t : FieldType}
    (h : scan position text = .ok s) (ht : s.type = some t) : FieldText t.render := by
  have hresult := resultText_of_scan h
  rw [ht] at hresult
  exact hresult.resolve_right (render_ne_void t)

/-- What is read as arguments are texts of the grammar, up to the closing parenthesis. -/
theorem scanArguments_render {position q : Nat} {text rest : List Char} {args : List FieldType}
    (h : scanArguments position text = .ok (args, q, rest)) :
    (∀ t ∈ args, FieldText t.render) ∧
      text = (args.map FieldType.render).flatten ++ ')' :: rest := by
  fun_induction scanArguments position text generalizing args q rest with
  | case1 => cases h
  | case2 position after =>
    cases h
    exact ⟨by simp, rfl⟩
  | case3 => cases h
  | case4 => cases h
  | case5 => cases h
  | case6 position c after hc t position' after' hscan hlt args' q' rest' hrest ih =>
    cases h
    obtain ⟨htexts, htext⟩ := ih hrest
    refine ⟨List.forall_mem_cons.2 ⟨fieldText_of_scan hscan rfl, htexts⟩, ?_⟩
    have hrender := scan_render hscan
    dsimp only at hrender
    rw [hrender, htext]
    simp [MethodType.renderResult]

/-! ### Method descriptors -/

theorem map_render_of_reads {texts : List (List Char)} {fields : List FieldType}
    (h : List.Forall₂ (fun text t => Reads text (some t)) texts fields) :
    fields.map FieldType.render = texts := by
  induction h with
  | nil => rfl
  | cons hread _ ih =>
    rw [List.map_cons, ih, hread.eq_render]
    rfl

/-- **Reading a method descriptor finds its parts.** -/
theorem MethodText.scanMethod_eq {args : List (List Char)} {result text : List Char}
    (h : MethodText args result text) :
    ∃ m : MethodType, scanMethod text = .ok m ∧ m.args.map FieldType.render = args ∧
      MethodType.renderResult m.result = result := by
  obtain ⟨fields, hfields⟩ : ∃ fields,
      List.Forall₂ (fun text t => Reads text (some t)) args fields := by
    have hargs := h.args_text
    clear h
    induction args with
    | nil => exact ⟨[], .nil⟩
    | cons arg args ih =>
      obtain ⟨harg, hrest⟩ := List.forall_mem_cons.1 hargs
      obtain ⟨fields, hfields⟩ := ih hrest
      obtain ⟨t, ht⟩ := harg.exists_reads
      exact ⟨t :: fields, .cons ht hfields⟩
  obtain ⟨type, htype⟩ := h.result_text.exists_reads
  refine ⟨⟨fields, type⟩, ?_, map_render_of_reads hfields, htype.eq_render.symm⟩
  rw [h.text_eq]
  exact scanMethod_of_reads hfields htype

/-- What is read as a method descriptor is one. -/
theorem methodText_of_scanMethod {text : List Char} {m : MethodType}
    (h : scanMethod text = .ok m) :
    MethodText (m.args.map FieldType.render) (MethodType.renderResult m.result) text := by
  unfold scanMethod at h
  split at h
  · next rest =>
    split at h
    · cases h
    next args position after hargs =>
    split at h
    · cases h
    -- nothing is left behind the result
    · next result q hresult =>
      obtain rfl := Except.ok.inj h
      obtain ⟨htexts, htext⟩ := scanArguments_render hargs
      refine ⟨?_, resultText_of_scan hresult, ?_⟩
      · intro arg harg
        obtain ⟨t, ht, rfl⟩ := List.mem_map.1 harg
        exact htexts t ht
      · have hrender := scan_render hresult
        dsimp only at hrender
        rw [List.append_nil] at hrender
        rw [htext, hrender]
        rfl
    · cases h
  · cases h

/-- The parts of a method descriptor are determined by its text. -/
theorem MethodText.unique {args args' : List (List Char)} {result result' text : List Char}
    (h : MethodText args result text) (h' : MethodText args' result' text) :
    args = args' ∧ result = result' := by
  obtain ⟨m, hm, hargs, hresult⟩ := h.scanMethod_eq
  obtain ⟨m', hm', hargs', hresult'⟩ := h'.scanMethod_eq
  obtain rfl := Except.ok.inj (hm.symm.trans hm')
  exact ⟨hargs.symm.trans hargs', hresult.symm.trans hresult'⟩

/-! ### Texts byte by byte -/

/-- The bytes of a character, each taken as a character of its own. -/
def bytesOf (c : Char) : List Char :=
  (String.utf8EncodeChar c).map Char.ofUInt8

/-- The text that has a character for each byte of the given one. -/
def bytewise (text : String) : String :=
  String.ofList (text.toUTF8.data.toList.map Char.ofUInt8)

theorem toList_bytewise (text : String) : (bytewise text).toList = text.toList.flatMap bytesOf := by
  have hbytes : text.toUTF8.data.toList = text.toList.flatMap String.utf8EncodeChar := by
    change text.toByteArray.data.toList = _
    rw [← String.utf8Encode_toList]
    simp [List.utf8Encode]
  rw [bytewise, String.toList_ofList, hbytes, List.map_flatMap]
  rfl

theorem toNat_ofUInt8 (u : UInt8) : (Char.ofUInt8 u).toNat = u.toNat :=
  UInt8.toNat_toUInt32 u

/-- A character of one byte is that byte. -/
theorem bytesOf_of_lt {c : Char} (h : c.toNat < 128) : bytesOf c = [c] := by
  have hval : c.val.toNat ≤ 127 := Nat.le_of_lt_succ h
  unfold bytesOf String.utf8EncodeChar
  simp only [hval, if_true, List.map_cons, List.map_nil]
  congr 1
  apply Char.ext
  apply UInt32.toNat_inj.1
  change (Char.ofUInt8 _).toNat = c.toNat
  rw [toNat_ofUInt8, UInt8.toNat_ofNat']
  exact Nat.mod_eq_of_lt (by omega)

/-- The bytes of any other character are not characters of one byte. -/
theorem le_of_mem_bytesOf {c b : Char} (h : 128 ≤ c.toNat) (hb : b ∈ bytesOf c) :
    128 ≤ b.toNat := by
  have hval : ¬ c.val.toNat ≤ 127 := Nat.not_le_of_lt h
  obtain ⟨u, hu, rfl⟩ := List.mem_map.1 hb
  rw [toNat_ofUInt8]
  unfold String.utf8EncodeChar at hu
  simp only [hval, if_false] at hu
  -- each byte of a longer encoding is marked in its highest bit
  split at hu
  · simp only [List.mem_cons, List.not_mem_nil, or_false] at hu
    rcases hu with rfl | rfl <;> rw [UInt8.toNat_ofNat'] <;> omega
  split at hu
  · simp only [List.mem_cons, List.not_mem_nil, or_false] at hu
    rcases hu with rfl | rfl | rfl <;> rw [UInt8.toNat_ofNat'] <;> omega
  · simp only [List.mem_cons, List.not_mem_nil, or_false] at hu
    rcases hu with rfl | rfl | rfl | rfl <;> rw [UInt8.toNat_ofNat'] <;> omega

theorem bytesOf_ne_nil (c : Char) : bytesOf c ≠ [] := by
  unfold bytesOf String.utf8EncodeChar
  grind

/-- A text whose bytes are split at a character of one byte is itself split there. -/
theorem exists_split {d : Char} (hd : d.toNat < 128) {text before after : List Char}
    (h : text.flatMap bytesOf = before ++ d :: after) :
    ∃ before' after', text = before' ++ d :: after' ∧ before'.flatMap bytesOf = before ∧
      after'.flatMap bytesOf = after := by
  induction text generalizing before with
  | nil => simp at h
  | cons c text ih =>
    rw [List.flatMap_cons] at h
    -- `d` stands behind the bytes of the first character, or it is one of them
    rcases List.append_eq_append_iff.1 h with ⟨between, rfl, hrest⟩ | ⟨within, hc, hrest⟩
    · obtain ⟨before', after', rfl, rfl, rfl⟩ := ih hrest
      exact ⟨c :: before', after', rfl, rfl, rfl⟩
    · cases within with
      | nil =>
        have hrest' : text.flatMap bytesOf = [] ++ d :: after := hrest.symm
        obtain ⟨before', after', rfl, hbefore, rfl⟩ := ih hrest'
        refine ⟨c :: before', after', rfl, ?_, rfl⟩
        rw [List.flatMap_cons, hbefore, hc]
        simp
      | cons d' within =>
        obtain ⟨rfl, hafter⟩ := List.cons.inj hrest
        have hlt : c.toNat < 128 := Nat.lt_of_not_le fun hle =>
          absurd (le_of_mem_bytesOf (b := d) hle (by rw [hc]; simp)) (Nat.not_le_of_lt hd)
        rw [bytesOf_of_lt hlt] at hc
        obtain ⟨rfl, rfl, rfl⟩ : before = [] ∧ c = d ∧ within = [] := by
          cases before with
          | nil => simpa using hc
          | cons b before => simp at hc
        exact ⟨[], text, rfl, rfl, hafter.symm⟩

theorem flatMap_bytesOf_eq_nil {text : List Char} (h : text.flatMap bytesOf = []) : text = [] := by
  cases text with
  | nil => rfl
  | cons c text => exact absurd (List.append_eq_nil_iff.1 h).1 (bytesOf_ne_nil c)

/-- A text whose bytes start with a character of one byte starts with it. -/
theorem exists_cons {d : Char} (hd : d.toNat < 128) {text after : List Char}
    (h : text.flatMap bytesOf = d :: after) :
    ∃ after', text = d :: after' ∧ after'.flatMap bytesOf = after := by
  have hsplit : text.flatMap bytesOf = [] ++ d :: after := h
  obtain ⟨before', after', rfl, hbefore, hafter⟩ := exists_split hd hsplit
  obtain rfl := flatMap_bytesOf_eq_nil hbefore
  exact ⟨after', rfl, hafter⟩

theorem letter_lt (p : Primitive) : p.letter.toNat < 128 := by
  cases p <;> decide

/-- A field type ends in a character of one byte. -/
theorem FieldText.exists_last {text : List Char} (h : FieldText text) :
    ∃ init d, text = init ++ [d] ∧ d.toNat < 128 := by
  induction h with
  | prim p => exact ⟨[], p.letter, rfl, letter_lt p⟩
  | @object name _ _ => exact ⟨'L' :: name, ';', rfl, by decide⟩
  | array _ ih =>
    obtain ⟨init, d, rfl, hd⟩ := ih
    exact ⟨'[' :: init, d, rfl, hd⟩

/-- A text is a field type exactly if its bytes are one. -/
theorem fieldText_flatMap_bytesOf {text : List Char} :
    FieldText (text.flatMap bytesOf) ↔ FieldText text := by
  constructor
  · intro h
    generalize hbytes : text.flatMap bytesOf = bytes at h
    induction h generalizing text with
    | prim p =>
      obtain ⟨after, rfl, hafter⟩ := exists_cons (letter_lt p) hbytes
      obtain rfl := flatMap_bytesOf_eq_nil hafter
      exact .prim p
    | @object name nonempty free =>
      obtain ⟨after, rfl, hafter⟩ := exists_cons (by decide) hbytes
      obtain ⟨name', end', rfl, rfl, hend⟩ := exists_split (by decide) hafter
      obtain rfl := flatMap_bytesOf_eq_nil hend
      refine .object (fun hnil => nonempty (by rw [hnil]; rfl)) fun hmem => free ?_
      refine List.mem_flatMap.2 ⟨';', hmem, ?_⟩
      rw [bytesOf_of_lt (by decide)]
      exact List.mem_singleton.2 rfl
    | array _ ih =>
      obtain ⟨after, rfl, hafter⟩ := exists_cons (by decide) hbytes
      exact .array (ih hafter)
  · intro h
    induction h with
    | prim p =>
      rw [List.flatMap_singleton, bytesOf_of_lt (letter_lt p)]
      exact .prim p
    | @object name nonempty free =>
      rw [List.flatMap_append, List.flatMap_cons, List.flatMap_singleton,
        bytesOf_of_lt (by decide), bytesOf_of_lt (by decide)]
      refine .object (fun hnil => nonempty (flatMap_bytesOf_eq_nil hnil)) fun hmem => ?_
      obtain ⟨c, hc, hsemi⟩ := List.mem_flatMap.1 hmem
      -- the semicolon would be a byte of a longer character
      by_cases hlt : c.toNat < 128
      · rw [bytesOf_of_lt hlt] at hsemi
        exact free (List.mem_singleton.1 hsemi ▸ hc)
      · exact absurd (le_of_mem_bytesOf (Nat.le_of_not_lt hlt) hsemi) (by decide)
    | array _ ih =>
      rw [List.flatMap_cons, bytesOf_of_lt (by decide)]
      exact .array ih

theorem resultText_flatMap_bytesOf {text : List Char} :
    ResultText (text.flatMap bytesOf) ↔ ResultText text := by
  unfold ResultText
  rw [fieldText_flatMap_bytesOf]
  refine or_congr_right ⟨fun h => ?_, ?_⟩
  · obtain ⟨after, rfl, hafter⟩ := exists_cons (by decide) h
    rw [flatMap_bytesOf_eq_nil hafter]
  · rintro rfl
    rw [List.flatMap_singleton, bytesOf_of_lt (by decide)]

/-- Argument types that are found among the bytes of a text are found in the text. -/
theorem exists_arguments {args : List (List Char)} (hargs : ∀ arg ∈ args, FieldText arg)
    {text result : List Char} (h : text.flatMap bytesOf = args.flatten ++ ')' :: result) :
    ∃ (args' : List (List Char)) (result' : List Char), (∀ arg ∈ args', FieldText arg) ∧
      text = args'.flatten ++ ')' :: result' ∧ result'.flatMap bytesOf = result := by
  induction args generalizing text with
  | nil =>
    obtain ⟨result', rfl, hresult⟩ := exists_cons (by decide) h
    exact ⟨[], result', by simp, rfl, hresult⟩
  | cons arg args ih =>
    obtain ⟨harg, hrest⟩ := List.forall_mem_cons.1 hargs
    obtain ⟨init, d, rfl, hd⟩ := harg.exists_last
    rw [List.flatten_cons, List.append_assoc, List.append_assoc, List.singleton_append] at h
    obtain ⟨init', after, rfl, rfl, hafter⟩ := exists_split hd h
    obtain ⟨args', result', hargs', rfl, hresult⟩ := ih hrest hafter
    have harg' : FieldText (init' ++ [d]) := by
      rw [← fieldText_flatMap_bytesOf, List.flatMap_append, List.flatMap_singleton,
        bytesOf_of_lt hd]
      exact harg
    exact ⟨(init' ++ [d]) :: args', result', List.forall_mem_cons.2 ⟨harg', hargs'⟩, by simp,
      hresult⟩

/-- A text is a method descriptor exactly if its bytes are one. -/
theorem methodText_flatMap_bytesOf {text : List Char} :
    (∃ args result, MethodText args result (text.flatMap bytesOf)) ↔
      ∃ args result, MethodText args result text := by
  constructor
  · rintro ⟨args, result, hargs, hresult, htext⟩
    obtain ⟨rest, rfl, hrest⟩ := exists_cons (by decide) htext
    obtain ⟨args', result', hargs', rfl, rfl⟩ := exists_arguments hargs hrest
    exact ⟨args', result', hargs', resultText_flatMap_bytesOf.1 hresult, rfl⟩
  · rintro ⟨args, result, hargs, hresult, rfl⟩
    refine ⟨args.map (·.flatMap bytesOf), result.flatMap bytesOf, ?_,
      resultText_flatMap_bytesOf.2 hresult, ?_⟩
    · intro arg harg
      obtain ⟨arg', harg', rfl⟩ := List.mem_map.1 harg
      exact fieldText_flatMap_bytesOf.2 (hargs arg' harg')
    · rw [List.flatMap_append, List.flatMap_cons, List.flatMap_cons, bytesOf_of_lt (by decide),
        bytesOf_of_lt (by decide), ← List.flatMap_def, ← List.flatMap_id, List.flatMap_assoc]
      rfl

end Descriptor

namespace JType

/-- The descriptor of a type that was read is the text it was read from. -/
theorem descriptor_ofField (t : FieldType) : (ofField t).descriptor = String.ofList t.render := by
  cases t with
  | prim p => cases p <;> rfl
  | object name => simp [ofField, descriptor, text, FieldType.render, ← String.toList_inj]
  | array elem => simp [ofField, descriptor, text, FieldType.render]

theorem descriptor_ofResult (type : Option FieldType) :
    (ofResult type).descriptor = String.ofList (MethodType.renderResult type) := by
  cases type with
  | none => rfl
  | some t => exact descriptor_ofField t

/-- A type that is read from some descriptor. -/
def Parsed (t : JType) : Prop := ∃ text, JType.parse text = .ok t

/-- A field descriptor is accepted exactly if the grammar has it. -/
theorem exists_parse_iff {text : String} :
    (∃ t, JType.parse text = .ok t) ↔ Descriptor.ResultText text.toList := by
  constructor
  · rintro ⟨t, ht⟩
    obtain ⟨type, hread, -⟩ := parse_eq_ok.1 ht
    rw [hread.eq_render]
    exact Descriptor.resultText_of_scan hread.choose_spec
  · intro h
    obtain ⟨type, htype⟩ := h.exists_reads
    exact ⟨ofResult type, parse_eq_ok.2 ⟨type, htype, rfl⟩⟩

theorem descriptor_of_parse {text : String} {t : JType} (h : JType.parse text = .ok t) :
    t.descriptor = text := by
  obtain ⟨type, hread, rfl⟩ := parse_eq_ok.1 h
  rw [descriptor_ofResult, ← hread.eq_render, String.ofList_toList]

/-- A type other than `void` that is read from a descriptor is the type of a field, and is read from
its own descriptor. -/
theorem Parsed.exists_field {t : JType} (h : t.Parsed) (hvoid : t ≠ .void) :
    ∃ field, t = ofField field ∧ Descriptor.Reads field.render (some field) := by
  obtain ⟨text, ht⟩ := h
  obtain ⟨type, hread, rfl⟩ := parse_eq_ok.1 ht
  cases type with
  | none => exact absurd rfl hvoid
  | some field =>
    refine ⟨field, rfl, ?_⟩
    rw [show field.render = text.toList from hread.eq_render.symm]
    exact hread

/-- The component of an array is read back from the array. -/
theorem elementType_arrayOf {t : JType} (h : t.Parsed) (hvoid : t ≠ .void) :
    (arrayOf t).elementType = t := by
  obtain ⟨field, rfl, q, hq⟩ := h.exists_field hvoid
  have htext : (ofField field).text.toList = field.render := by
    cases field with
    | prim p => cases p <;> rfl
    | object name => simp [ofField, text, FieldType.render]
    | array elem => simp [ofField, text, FieldType.render]
  obtain ⟨q', hq'⟩ := Descriptor.scan_append hq [] 1
  rw [List.append_nil] at hq'
  simp only [arrayOf, elementType, Descriptor.component?, htext, hq', ofResult]

end JType

namespace Signature

/-- A method descriptor is accepted exactly if the grammar has it. -/
theorem exists_parse_iff {text : String} :
    (∃ s, Signature.parse text = .ok s) ↔
      ∃ args result, Descriptor.MethodText args result text.toList := by
  constructor
  · rintro ⟨s, hs⟩
    obtain ⟨m, hm, -⟩ := parse_eq_ok.1 hs
    exact ⟨_, _, Descriptor.methodText_of_scanMethod hm⟩
  · rintro ⟨args, result, h⟩
    obtain ⟨m, hm, -⟩ := h.scanMethod_eq
    exact ⟨_, parse_eq_ok.2 ⟨m, hm, rfl⟩⟩

/-- The types that are read from a method descriptor have its parts as descriptors. -/
theorem methodText_of_parse {text : String} {s : Signature} (h : Signature.parse text = .ok s) :
    Descriptor.MethodText (s.args.map (·.descriptor.toList)) s.result.descriptor.toList
      text.toList := by
  obtain ⟨m, hm, rfl⟩ := parse_eq_ok.1 h
  have hargs : (m.args.map JType.ofField).map (·.descriptor.toList) =
      m.args.map FieldType.render := by
    simp [JType.descriptor_ofField]
  rw [hargs, JType.descriptor_ofResult, String.toList_ofList]
  exact Descriptor.methodText_of_scanMethod hm

/-- Types that were read are read back from the method descriptor they are put together to. -/
theorem parse_ofSignature_of_parsed {args : List JType} {result : JType}
    (hargs : ∀ t ∈ args, t.Parsed ∧ t ≠ .void) (hresult : result.Parsed) :
    Signature.parse (JType.ofSignature args result).descriptor = .ok ⟨args, result⟩ := by
  obtain ⟨fields, rfl, hfields⟩ : ∃ fields : List FieldType, args = fields.map JType.ofField ∧
      List.Forall₂ (fun text t => Descriptor.Reads text (some t))
        (args.map (·.descriptor.toList)) fields := by
    induction args with
    | nil => exact ⟨[], rfl, .nil⟩
    | cons t args ih =>
      obtain ⟨⟨ht, hvoid⟩, hrest⟩ := List.forall_mem_cons.1 hargs
      obtain ⟨fields, rfl, hfields⟩ := ih hrest
      obtain ⟨field, rfl, hread⟩ := ht.exists_field hvoid
      refine ⟨field :: fields, rfl, .cons ?_ hfields⟩
      change Descriptor.Reads (JType.ofField field).descriptor.toList (some field)
      rwa [JType.descriptor_ofField, String.toList_ofList]
  obtain ⟨text, htext⟩ := hresult
  obtain ⟨type, hread, rfl⟩ := JType.parse_eq_ok.1 htext
  refine parse_eq_ok.2 ⟨⟨fields, type⟩, ?_, rfl⟩
  rw [toList_descriptor_ofSignature, JType.descriptor_ofResult, ← hread.eq_render,
    String.ofList_toList]
  exact Descriptor.scanMethod_of_reads hfields hread

end Signature

/-- **Descriptors are read exactly as the grammar says.** A text is accepted as a field type or as a
method descriptor exactly if it is one, the parts of a method descriptor are determined by its text,
and the types that are read have the text and its parts as their descriptors. In the other
direction, types that were read are read back from the method descriptor that is put together from
them, and from an array of them. Any sequence of bytes can stand as a text with one character for
each byte, and it makes no difference whether a text is read like that or by its characters. -/
theorem descriptors_exact :
    (∀ text : String, (∃ t, JType.parse text = .ok t) ↔
      Descriptor.FieldText text.toList ∨ text = "V") ∧
    (∀ (text : String) (t : JType), JType.parse text = .ok t → t.descriptor = text) ∧
    (∀ text : String, (∃ s, Signature.parse text = .ok s) ↔
      ∃ args result, Descriptor.MethodText args result text.toList) ∧
    (∀ (text : String) (args args' : List (List Char)) (result result' : List Char),
      Descriptor.MethodText args result text.toList →
        Descriptor.MethodText args' result' text.toList → args = args' ∧ result = result') ∧
    (∀ (text : String) (s : Signature), Signature.parse text = .ok s →
      Descriptor.MethodText (s.args.map (·.descriptor.toList)) s.result.descriptor.toList
          text.toList ∧
        (JType.ofSignature s.args s.result).descriptor = text) ∧
    (∀ (args : List JType) (result : JType), (∀ t ∈ args, t.Parsed ∧ t ≠ .void) → result.Parsed →
      Signature.parse (JType.ofSignature args result).descriptor = .ok ⟨args, result⟩) ∧
    (∀ t : JType, t.Parsed → t ≠ .void → (JType.arrayOf t).elementType = t) ∧
    ∀ text : String,
      ((∃ t, JType.parse (Descriptor.bytewise text) = .ok t) ↔ ∃ t, JType.parse text = .ok t) ∧
        ((∃ s, Signature.parse (Descriptor.bytewise text) = .ok s) ↔
          ∃ s, Signature.parse text = .ok s) := by
  refine ⟨fun text => ?_, fun text t => JType.descriptor_of_parse,
    fun text => Signature.exists_parse_iff, fun text args args' result result' h h' => h.unique h',
    fun text s hs => ⟨Signature.methodText_of_parse hs, ?_⟩,
    fun args result => Signature.parse_ofSignature_of_parsed,
    fun t => JType.elementType_arrayOf, fun text => ⟨?_, ?_⟩⟩
  · rw [JType.exists_parse_iff, ← String.toList_inj]
    rfl
  · rw [← String.toList_inj, Signature.toList_descriptor_ofSignature]
    exact (Signature.methodText_of_parse hs).text_eq.symm
  · rw [JType.exists_parse_iff, JType.exists_parse_iff, Descriptor.toList_bytewise,
      Descriptor.resultText_flatMap_bytesOf]
  · rw [Signature.exists_parse_iff, Signature.exists_parse_iff, Descriptor.toList_bytewise,
      Descriptor.methodText_flatMap_bytesOf]

end Outliner
