import Diglot.Syntax.OfJson
import Diglot.Syntax.ToJson
import Mathlib.Data.List.Forall2

namespace Diglot

namespace Json

-- The fields of an object with some of the null ones left out and some others put in, whose names
-- are listed. The values that stay are related to what they were.
inductive FieldsLoosen (related : Json → Json → Prop) :
    List (String × Json) → List String → List (String × Json) → Prop
  | nil : FieldsLoosen related [] [] []
  | keep {name : String} {value loose : Json} {fields rest : List (String × Json)}
      {added : List String} (hvalue : related value loose)
      (hrest : FieldsLoosen related fields added rest) :
      FieldsLoosen related ((name, value) :: fields) added ((name, loose) :: rest)
  | drop {name : String} {fields rest : List (String × Json)} {added : List String}
      (hrest : FieldsLoosen related fields added rest) :
      FieldsLoosen related ((name, null) :: fields) added rest
  | add {name : String} {value : Json} {fields rest : List (String × Json)} {added : List String}
      (hrest : FieldsLoosen related fields added rest) :
      FieldsLoosen related fields (name :: added) ((name, value) :: rest)

-- A value whose objects, at any depth, may have lost fields that are null and may have got fields
-- under names that they do not have.
inductive Loosens : Json → Json → Prop
  | null : Loosens null null
  | bool (value : Bool) : Loosens (bool value) (bool value)
  | nat (value : Nat) : Loosens (nat value) (nat value)
  | number (literal : String) : Loosens (number literal) (number literal)
  | str (value : String) : Loosens (str value) (str value)
  | arr {items loose : List Json} (h : List.Forall₂ Loosens items loose) :
      Loosens (arr items) (arr loose)
  | obj {fields loose : List (String × Json)} {added : List String}
      (h : FieldsLoosen Loosens fields added loose)
      (hadded : ∀ name ∈ added, name ∉ fields.map (·.1)) : Loosens (obj fields) (obj loose)

mutual

theorem Loosens.refl : ∀ json : Json, Loosens json json
  | .null => .null
  | .bool value => .bool value
  | .nat value => .nat value
  | .number literal => .number literal
  | .str value => .str value
  | .arr items => .arr (itemsLoosen_refl items)
  | .obj fields => .obj (fieldsLoosen_refl fields) (by simp)

theorem itemsLoosen_refl : ∀ items : List Json, List.Forall₂ Loosens items items
  | [] => .nil
  | first :: rest => .cons (Loosens.refl first) (itemsLoosen_refl rest)

theorem fieldsLoosen_refl :
    ∀ fields : List (String × Json), FieldsLoosen Loosens fields [] fields
  | [] => .nil
  | (_, value) :: rest => .keep (Loosens.refl value) (fieldsLoosen_refl rest)

end

section Fields

variable {fields loose : List (String × Json)} {added : List String} {name : String} {value : Json}

theorem lookup_cons_of_ne {other : String} (h : other ≠ name) :
    lookup name ((other, value) :: fields) = lookup name fields := by
  simp only [lookup, h, if_false]
  cases lookup name fields <;> rfl

-- A name that an object does not have, and that is not put in, is none of a loosened object.
theorem FieldsLoosen.lookup_eq_none (h : FieldsLoosen Loosens fields added loose)
    (hname : name ∉ fields.map (·.1)) (hadded : name ∉ added) : lookup name loose = none := by
  induction h with
  | nil => rfl
  | keep _ _ ih =>
      rw [List.map_cons, List.mem_cons, not_or] at hname
      rw [lookup_cons_of_ne (Ne.symm hname.1)]
      exact ih hname.2 hadded
  | drop _ ih =>
      rw [List.map_cons, List.mem_cons, not_or] at hname
      exact ih hname.2 hadded
  | add _ ih =>
      rw [List.mem_cons, not_or] at hadded
      rw [lookup_cons_of_ne (Ne.symm hadded.1)]
      exact ih hname hadded.2

-- What a loosened object says for a field, or leaves unsaid if that is null.
theorem FieldsLoosen.getD_lookup (h : FieldsLoosen Loosens fields added loose)
    (hadded : ∀ name ∈ added, name ∉ fields.map (·.1)) (hnodup : (fields.map (·.1)).Nodup)
    (hvalue : (name, value) ∈ fields) : Loosens value ((lookup name loose).getD .null) := by
  induction h with
  | nil => cases hvalue
  | @keep other kept _ fields rest added hkept hrest ih =>
      rw [List.map_cons, List.nodup_cons] at hnodup
      simp only [List.map_cons, List.mem_cons, not_or] at hadded
      rcases List.mem_cons.mp hvalue with heq | hvalue
      · cases heq
        have hnone := hrest.lookup_eq_none hnodup.1 fun h => (hadded _ h).1 rfl
        simpa [lookup, hnone] using hkept
      · have hne : other ≠ name := by
          rintro rfl
          exact hnodup.1 (List.mem_map.mpr ⟨_, hvalue, rfl⟩)
        rw [lookup_cons_of_ne hne]
        exact ih (fun other h => (hadded other h).2) hnodup.2 hvalue
  | @drop other fields rest added hrest ih =>
      rw [List.map_cons, List.nodup_cons] at hnodup
      simp only [List.map_cons, List.mem_cons, not_or] at hadded
      rcases List.mem_cons.mp hvalue with heq | hvalue
      · cases heq
        have hnone := hrest.lookup_eq_none hnodup.1 fun h => (hadded _ h).1 rfl
        rw [hnone]
        exact .null
      · exact ih (fun other h => (hadded other h).2) hnodup.2 hvalue
  | @add other _ fields rest added hrest ih =>
      have hne : other ≠ name := by
        rintro rfl
        exact hadded other (.head _) (List.mem_map.mpr ⟨_, hvalue, rfl⟩)
      rw [lookup_cons_of_ne hne]
      exact ih (fun other h => hadded other (.tail _ h)) hnodup hvalue

theorem depth_le_of_lookup (h : lookup name fields = some value) :
    value.depth ≤ fieldsDepth fields := by
  induction fields with
  | nil => cases h
  | cons first rest ih =>
      obtain ⟨other, found⟩ := first
      rw [fieldsDepth]
      cases hrest : lookup name rest with
      | some later =>
          simp only [lookup, hrest, Option.some.injEq] at h
          have := ih (h ▸ hrest)
          omega
      | none =>
          simp only [lookup, hrest] at h
          split at h
          · cases h
            omega
          · cases h

theorem depth_le_itemsDepth {items : List Json} {item : Json} (h : item ∈ items) :
    item.depth ≤ itemsDepth items := by
  induction items with
  | nil => cases h
  | cons first rest ih =>
      rw [itemsDepth]
      rcases List.mem_cons.mp h with rfl | h
      · omega
      · have := ih h
        omega

theorem Loosens.eq_null {json : Json} (h : Loosens json .null) : json = .null := by
  cases h
  rfl

end Fields

-- A loosened form of a value that is null or no deeper than a limit.
def Near (limit : Nat) (json loose : Json) : Prop :=
  Loosens json loose ∧ (loose = .null ∨ loose.depth ≤ limit)

section Near

variable {α : Type} {limit : Nat} {loose : Json} {fields : List (String × Json)}
  {rest : List Json → Option α} {value : Option α}

theorem Near.mono {more : Nat} {json : Json} (h : Near limit json loose) (hle : limit ≤ more) :
    Near more json loose :=
  ⟨h.1, h.2.imp_right fun hdepth => Nat.le_trans hdepth hle⟩

-- The fields of a loosened object are loosened, and less deep. A decoder goes on with them.
theorem Near.values (h : Near (limit + 1) (.obj fields) loose) (hnodup : (fields.map (·.1)).Nodup)
    {part : List (String × Json)} (hpart : part ⊆ fields)
    (hrest : ∀ found, List.Forall₂ (Near limit) (part.map (·.2)) found → rest found = value) :
    (loose.values (part.map (·.1))).bind rest = value := by
  obtain ⟨hloose, hdepth⟩ := h
  cases hloose with
  | @obj _ looseFields added hfields hadded =>
      refine hrest _ ?_
      rw [List.map_map, List.forall₂_map_left_iff, List.forall₂_map_right_iff, List.forall₂_same]
      intro field hfield
      refine ⟨hfields.getD_lookup hadded hnodup (hpart hfield), ?_⟩
      cases hlookup : lookup field.1 looseFields with
      | none => exact .inl (by simp [hlookup])
      | some value =>
          have hvalue := depth_le_of_lookup hlookup
          rcases hdepth with hnull | hdepth
          · cases hnull
          · rw [depth] at hdepth
            right
            simp only [Function.comp, hlookup, Option.getD_some]
            omega

theorem Near.record (h : Near limit (.obj fields) loose) (hnodup : (fields.map (·.1)).Nodup)
    (hrest : ∀ found, List.Forall₂ (Near limit) (fields.map (·.2)) found → rest found = value) :
    (loose.values (fields.map (·.1))).bind rest = value :=
  (h.mono (Nat.le_succ limit)).values hnodup (List.Subset.refl _) hrest

-- The kind of a loosened object is found, and its other fields are loosened and less deep.
section Tagged

variable {tag kind : String} (h : Near (limit + 1) (.tagged tag kind fields) loose)
  (hnodup : (tag :: fields.map (·.1)).Nodup)

include h hnodup

theorem Near.parts
    (hrest : ∀ found, List.Forall₂ (Near limit) (fields.map (·.2)) found → rest found = value) :
    (loose.values (fields.map (·.1))).bind rest = value :=
  h.values hnodup (List.subset_cons_self _ _) hrest

theorem Near.kindOf (kinds : List String) (rest : String × Json → Option α) :
    (loose.kind? tag kinds).bind rest = rest (kind, loose) := by
  obtain ⟨hloose, -⟩ := h
  cases hloose with
  | @obj _ looseFields added hfields hadded =>
      have hkind := hfields.getD_lookup hadded hnodup (.head _)
      cases hlookup : lookup tag looseFields with
      | none =>
          rw [hlookup] at hkind
          cases hkind
      | some found =>
          rw [hlookup] at hkind
          cases hkind
          simp [kind?, hlookup, kindName?]

end Tagged

-- An object has a depth of at least one.
theorem Near.exists_succ (h : Near limit (.obj fields) loose) : ∃ smaller, limit = smaller + 1 := by
  obtain ⟨⟨⟩, hnull | hdepth⟩ := h
  · cases hnull
  · rw [depth] at hdepth
    exact Nat.exists_eq_add_one.mpr (by omega)

end Near

-- A decoder finds a value in all loosened forms of another that are no deeper than a limit.
def Decodes {α : Type} (decode : Json → Option α) (limit : Nat) (json : Json) (value : α) : Prop :=
  ∀ loose, Near limit json loose → decode loose = some value

section Decoders

variable {α : Type} {limit : Nat} {decode : Json → Option α} {loose : Json} {values : List α}
  {encode : α → Json}

-- What is found in the forms of texts, names that stand alone, truth values and numbers.

theorem Near.text {value : String} (h : Near limit (.str value) loose) :
    loose.text = some value := by
  obtain ⟨⟨⟩, -⟩ := h
  rfl

theorem Near.unit {name : String} (h : Near limit (.str name) loose) : loose.unit = some name := by
  obtain ⟨⟨⟩, -⟩ := h
  rfl

theorem Near.truth {value : Bool} (h : Near limit (.bool value) loose) :
    loose.truth = some value := by
  obtain ⟨⟨⟩, -⟩ := h
  rfl

theorem Near.word32 {value : Nat} (h : Near limit (.nat value) loose)
    (hvalue : value < 4294967296) :
    loose.word32 = some value := by
  obtain ⟨⟨⟩, -⟩ := h
  exact if_pos hvalue

theorem mapM_eq_some {items : List Json}
    (h : List.Forall₂ (fun value item => decode item = some value) values items) :
    items.mapM decode = some values := by
  induction h with
  | nil => rfl
  | cons hfirst _ ih => simp [List.mapM_cons, hfirst, ih]

theorem decodes_list (h : ∀ value ∈ values, Decodes decode limit (encode value) value) :
    Decodes (list decode) limit (.arr (values.map encode)) values := by
  rintro loose ⟨hloose, hdepth⟩
  cases hloose with
  | @arr _ items hitems =>
      have hsmall : ∀ item ∈ items, item.depth ≤ limit := by
        intro item hitem
        have hitem := depth_le_itemsDepth hitem
        rcases hdepth with hnull | hdepth
        · cases hnull
        · rw [depth] at hdepth
          omega
      apply mapM_eq_some
      rw [List.forall₂_map_left_iff] at hitems
      clear hdepth
      induction hitems with
      | nil => exact .nil
      | cons hitem _ ih =>
          rw [List.forall_mem_cons] at h hsmall
          exact .cons (h.1 _ ⟨hitem, .inr hsmall.1⟩) (ih h.2 hsmall.2)

-- A value that may be missing, if its own form is not null.
theorem decodes_optional {found : Option α} (hnull : ∀ value, encode value ≠ .null)
    (h : ∀ value, found = some value → Decodes decode limit (encode value) value) :
    Decodes (optional decode) limit (found.elim .null encode) found := by
  cases found with
  | none =>
      rintro loose ⟨⟨⟩, -⟩
      rfl
  | some value =>
      intro loose hloose
      have hdecode := h value rfl loose hloose
      have hpresent : optional decode loose = (decode loose).map some := by
        cases loose with
        | null => exact absurd hloose.1.eq_null (hnull value)
        | _ => rfl
      rw [hpresent, hdecode]
      rfl

end Decoders

end Json

end Diglot
