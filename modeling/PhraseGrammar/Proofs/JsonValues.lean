import PhraseGrammar.Json.Value
import PhraseGrammar.Proofs.JsonTokens

set_option autoImplicit false

/-! # Values that are read as they were written

Reading the tokens of a value where a value is awaited ends with that value, and the brackets that
were open before are the same afterwards (`read?_tokens`). This holds of every value, since the
tokens keep all of it. The tokens of a value come back from its written form if they are plain, and
then the value is the one that is read (`parse?_write`).
-/

namespace PhraseGrammar.Json.Value

/-! ## Tokens -/

/-- All tokens of the value are plain. -/
def IsPlain (value : Value) : Prop :=
  ∀ token ∈ value.tokens, token.isPlain = true

theorem isPlain_null : null.IsPlain := by
  rw [IsPlain, tokens]
  exact List.forall_mem_singleton.mpr rfl

theorem isPlain_natural (n : Nat) : (natural n).IsPlain := by
  rw [IsPlain, tokens]
  exact List.forall_mem_singleton.mpr rfl

theorem isPlain_text (content : String) : (string (.text content)).IsPlain := by
  rw [IsPlain, tokens]
  exact List.forall_mem_singleton.mpr rfl

theorem isPlain_itemTokens {items : List Value} (h : ∀ item ∈ items, item.IsPlain) :
    ∀ token ∈ itemTokens items, token.isPlain = true := by
  induction items with
  | nil =>
      rw [itemTokens]
      exact List.forall_mem_singleton.mpr rfl
  | cons item items ih =>
      rw [List.forall_mem_cons] at h
      rw [itemTokens, List.forall_mem_cons, List.forall_mem_append]
      exact ⟨rfl, h.1, ih h.2⟩

theorem isPlain_array {items : List Value} (h : ∀ item ∈ items, item.IsPlain) :
    (array items).IsPlain := by
  cases items with
  | nil =>
      rw [IsPlain, tokens]
      decide
  | cons item items =>
      rw [List.forall_mem_cons] at h
      rw [IsPlain, tokens, List.forall_mem_cons, List.forall_mem_append]
      exact ⟨rfl, h.1, isPlain_itemTokens h.2⟩

theorem isPlain_fieldTokens {fields : List (Literal × Value)}
    (h : ∀ field ∈ fields, (Token.literal field.1).isPlain = true ∧ field.2.IsPlain) :
    ∀ token ∈ fieldTokens fields, token.isPlain = true := by
  induction fields with
  | nil =>
      rw [fieldTokens]
      exact List.forall_mem_singleton.mpr rfl
  | cons field fields ih =>
      rw [List.forall_mem_cons] at h
      rw [fieldTokens]
      simp only [List.forall_mem_cons, List.forall_mem_append]
      exact ⟨rfl, h.1.1, rfl, h.1.2, ih h.2⟩

theorem isPlain_object {fields : List (Literal × Value)}
    (h : ∀ field ∈ fields, (Token.literal field.1).isPlain = true ∧ field.2.IsPlain) :
    (object fields).IsPlain := by
  cases fields with
  | nil =>
      rw [IsPlain, tokens]
      decide
  | cons field fields =>
      rw [List.forall_mem_cons] at h
      rw [IsPlain, tokens]
      simp only [List.forall_mem_cons, List.forall_mem_append]
      exact ⟨rfl, h.1.1, rfl, h.1.2, isPlain_fieldTokens h.2⟩

/-- The tokens behind an item start with a mark. -/
theorem isMark_of_mem_head?_itemTokens (items : List Value) :
    ∀ token ∈ (itemTokens items).head?, token.isMark = true := by
  cases items <;> (rw [itemTokens]; rintro token ⟨⟩; rfl)

/-- The tokens behind a field start with a mark. -/
theorem isMark_of_mem_head?_fieldTokens (fields : List (Literal × Value)) :
    ∀ token ∈ (fieldTokens fields).head?, token.isMark = true := by
  cases fields <;> (rw [fieldTokens]; rintro token ⟨⟩; rfl)

theorem scans_item {tokens : List Token} {items : List Value} (hTokens : Scans tokens)
    (hItems : Scans (itemTokens items)) : Scans (tokens ++ itemTokens items) :=
  hTokens.append hItems (isMark_of_mem_head?_itemTokens items)

/-- The key of a field, its colon and its value in front of the fields behind it. -/
theorem scans_field {key : Literal} {tokens : List Token} {fields : List (Literal × Value)}
    (hKey : (Token.literal key).isPlain = true) (hTokens : Scans tokens)
    (hFields : Scans (fieldTokens fields)) :
    Scans (.literal key :: .colon :: (tokens ++ fieldTokens fields)) := by
  have hValue : Scans (.colon :: (tokens ++ fieldTokens fields)) :=
    (hTokens.append hFields (isMark_of_mem_head?_fieldTokens fields)).cons_mark rfl
  refine (Scans.singleton hKey).append hValue ?_
  rintro token ⟨⟩
  rfl

mutual

/-- The plain tokens of a value are read back from its written form. -/
theorem scans_tokens (value : Value) (h : ∀ token ∈ value.tokens, token.isPlain = true) :
    Scans value.tokens := by
  match value with
  | null | bool value | natural n | decimal numeral | string content =>
      rw [tokens] at h ⊢
      exact Scans.singleton (h _ (List.mem_singleton_self _))
  | array [] =>
      rw [tokens]
      exact (Scans.singleton rfl).cons_mark rfl
  | array (item :: rest) =>
      rw [tokens] at h ⊢
      simp only [List.forall_mem_cons, List.forall_mem_append] at h
      exact (scans_item (scans_tokens item h.2.1) (scans_itemTokens rest h.2.2)).cons_mark rfl
  | object [] =>
      rw [tokens]
      exact (Scans.singleton rfl).cons_mark rfl
  | object ((key, value) :: rest) =>
      rw [tokens] at h ⊢
      simp only [List.forall_mem_cons, List.forall_mem_append] at h
      exact (scans_field h.2.1 (scans_tokens value h.2.2.2.1)
        (scans_fieldTokens rest h.2.2.2.2)).cons_mark rfl

theorem scans_itemTokens (items : List Value)
    (h : ∀ token ∈ itemTokens items, token.isPlain = true) : Scans (itemTokens items) := by
  match items with
  | [] =>
      rw [itemTokens]
      exact Scans.singleton rfl
  | item :: rest =>
      rw [itemTokens] at h ⊢
      simp only [List.forall_mem_cons, List.forall_mem_append] at h
      exact (scans_item (scans_tokens item h.2.1) (scans_itemTokens rest h.2.2)).cons_mark rfl

theorem scans_fieldTokens (fields : List (Literal × Value))
    (h : ∀ token ∈ fieldTokens fields, token.isPlain = true) : Scans (fieldTokens fields) := by
  match fields with
  | [] =>
      rw [fieldTokens]
      exact Scans.singleton rfl
  | (key, value) :: rest =>
      rw [fieldTokens] at h ⊢
      simp only [List.forall_mem_cons, List.forall_mem_append] at h
      exact (scans_field h.2.1 (scans_tokens value h.2.2.2.1)
        (scans_fieldTokens rest h.2.2.2.2)).cons_mark rfl

end

/-- The tokens of the written form of a plain value. -/
theorem tokens?_write {value : Value} (h : value.IsPlain) :
    tokens? value.write.toList = some value.tokens := by
  have hScan := scans_tokens value h [] delimited_nil
  rw [List.append_nil, tokens?, Option.map_some, List.append_nil] at hScan
  rwa [write, String.toList_ofList]

/-! ## Brackets -/

theorem read?_cons {awaited next : Awaited} {frames framesThen : List Frame} {token : Token}
    (h : step? awaited frames token = some (next, framesThen)) (rest : List Token) :
    read? awaited frames (token :: rest) = read? next framesThen rest := by
  rw [read?, h]

/-- Where an item or the end is awaited and a value comes, an item of a new bracket is awaited. -/
theorem read?_itemOrEnd (value : Value) (frames : List Frame) (rest : List Token) :
    read? .itemOrEnd frames (value.tokens ++ rest) =
      read? .value (.items [] :: frames) (value.tokens ++ rest) := by
  cases value with
  | null | bool value | natural n | decimal numeral | string content => rw [tokens]; rfl
  | array items => cases items <;> (rw [tokens]; rfl)
  | object fields => cases fields <;> (rw [tokens]; rfl)

mutual

/-- Reading the tokens of a value where a value is awaited gives the value, and the open brackets
stay as they are. -/
theorem read?_tokens (value : Value) (frames : List Frame) (rest : List Token) :
    read? .value frames (value.tokens ++ rest) = read? (.commaOrEnd value) frames rest := by
  match value with
  | null | bool value | natural n | decimal numeral | string content => rw [tokens]; rfl
  | array [] => rw [tokens]; rfl
  | array (item :: items) =>
      rw [tokens, List.cons_append, List.append_assoc, read?_cons rfl, read?_itemOrEnd,
        read?_tokens item, read?_itemTokens items]
      rfl
  | object [] => rw [tokens]; rfl
  | object ((key, value) :: fields) =>
      rw [tokens, List.cons_append, List.cons_append, List.cons_append, List.append_assoc,
        read?_cons rfl, read?_cons rfl, read?_cons rfl, read?_tokens value,
        read?_fieldTokens fields]
      rfl

/-- Behind an item the items after it are read, and its bracket is closed. -/
theorem read?_itemTokens (items : List Value) (item : Value) (before : List Value)
    (frames : List Frame) (rest : List Token) :
    read? (.commaOrEnd item) (.items before :: frames) (itemTokens items ++ rest) =
      read? (.commaOrEnd (array (before.reverse ++ item :: items))) frames rest := by
  match items with
  | [] =>
      rw [itemTokens, List.singleton_append, read?_cons rfl, List.reverse_cons]
  | next :: items =>
      rw [itemTokens, List.cons_append, List.append_assoc, read?_cons rfl, read?_tokens next,
        read?_itemTokens items, List.reverse_cons, List.append_assoc, List.singleton_append]

/-- Behind a field the fields after it are read, and its brace is closed. -/
theorem read?_fieldTokens (fields : List (Literal × Value)) (key : Literal) (value : Value)
    (before : List (Literal × Value)) (frames : List Frame) (rest : List Token) :
    read? (.commaOrEnd value) (.fields before key :: frames) (fieldTokens fields ++ rest) =
      read? (.commaOrEnd (object (before.reverse ++ (key, value) :: fields))) frames rest := by
  match fields with
  | [] =>
      rw [fieldTokens, List.singleton_append, read?_cons rfl, List.reverse_cons]
  | (nextKey, next) :: fields =>
      rw [fieldTokens, List.cons_append, List.cons_append, List.cons_append, List.append_assoc,
        read?_cons rfl, read?_cons rfl, read?_cons rfl, read?_tokens next,
        read?_fieldTokens fields, List.reverse_cons, List.append_assoc, List.singleton_append]

end

/-! ## Round trip -/

/-- A plain value is read back from its written form. -/
theorem parse?_write {value : Value} (h : value.IsPlain) : parse? value.write = some value := by
  have hRead := read?_tokens value [] []
  rw [List.append_nil] at hRead
  rw [parse?, tokens?_write h, Option.bind_some, hRead, read?]

/-- The written form of a plain value is free of control characters. -/
theorem toNat_of_mem_write {value : Value} (h : value.IsPlain) {c : Char}
    (hc : c ∈ value.write.toList) : 0x20 ≤ c.toNat := by
  rw [write, String.toList_ofList, List.mem_flatMap] at hc
  obtain ⟨token, hToken, hc⟩ := hc
  exact toNat_of_mem_spelling (h token hToken) c hc

end PhraseGrammar.Json.Value
