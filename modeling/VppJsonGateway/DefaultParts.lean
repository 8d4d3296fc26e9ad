import VppJsonGateway.Discovery
import VppJsonGateway.InterfaceNames

/-!
# What a default stands for

`PublicDefault` of `src/src/schema.cc` translates the default of a catalog, which is a number or a
word, to the value a client would give. `Denotes` says which value that is meant to be. A default is
usable where the octets its field appends, among those of the other fields, are the ones of that
value.
-/

namespace VppJson.Schema

open Lib

open Json (Valid)

/-! ## Values of a default -/

section

variable (cat : Catalog)

/-- A type of integers: a primitive, or an alias of one. -/
inductive IntegerType : Nat → Bytes → Bool → Nat → Prop
  | primitive {name : Bytes} {signed : Bool} {width : Nat}
      (hs : scalar? name = some (.int signed width)) (hcat : cat name = none) :
      IntegerType 0 name signed width
  | «alias» {n : Nat} {name type : Bytes} {signed : Bool} {width : Nat}
      (hs : scalar? name = none) (htext : (isAddress name || isPrefix name) = false)
      (hcat : cat name = some (.alias type none)) (htype : IntegerType n type signed width) :
      IntegerType (n + 1) name signed width

/-- An enum of integers: its symbols are distinct, and its values fit. -/
structure EnumType (name : Bytes) (values : List (Bytes × Int)) (flags signed : Bool)
    (width : Nat) : Prop where
  scalar : scalar? name = none
  text : (isAddress name || isPrefix name) = false
  base : ∃ type, cat name = some (.enum type values flags) ∧
    scalar? type = some (.int signed width)
  symbols : (values.map (·.1)).Nodup
  fits : ∀ kv ∈ values, inRange signed width kv.2 = true

/-- A default of a catalog denotes a value of a type, and these are the octets of the value. -/
inductive Denotes : Bytes → Json → Bytes → Prop
  | yes : Denotes "bool" (.str "true") [1]
  | no : Denotes "bool" (.str "false") [0]
  | integer {n : Nat} {name : Bytes} {signed : Bool} {width : Nat} {d : Json} {v : Int}
      (ht : IntegerType cat n name signed width) (hd : d.int? = some v)
      (hv : inRange signed width v = true) : Denotes name d (nativeInt width v)
  | symbol {name : Bytes} {values : List (Bytes × Int)} {signed : Bool} {width : Nat} {d : Json}
      {kv : Bytes × Int} (ht : EnumType cat name values false signed width) (hkv : kv ∈ values)
      (hd : d.int? = some kv.2) : Denotes name d (nativeInt width kv.2)
  | flags {name : Bytes} {values chosen : List (Bytes × Int)} {signed : Bool} {width : Nat}
      {d : Json} {v : Int} (ht : EnumType cat name values true signed width)
      (hchosen : ∀ kv ∈ chosen, kv ∈ values) (hd : d.int? = some v)
      (hv : inRange signed width v = true)
      (hbits : word v = chosen.foldl (fun bits kv => bits ||| word kv.2) 0) :
      Denotes name d (nativeInt width v)
  | interface {d : Json} (hd : d.int? = some 4294967295) :
      Denotes "vl_api_interface_index_t" d (leBytes 4 4294967295)

end

/-- The levels left for the fields of a type. -/
def fieldLevels : Nat := 32

/-- What `Convert` writes for the fields of a struct, field by field, and the status of the one it
fails at. -/
def fieldParts (cat : Catalog) (enc : Bytes → Option Json → Nat → Json → Except Status Bytes)
    (echo : Bytes → Json → Json) (name : Bytes) (tag : Option Json) :
    Nat → Json → List Field → List Bytes × Option Status
  | _, _, [] => ([], none)
  | size, object, f :: fs =>
    match fieldItem cat object f with
    | .error e => ([], some e)
    | .ok (item, object) =>
      match encodeField enc name tag size object item f with
      | .error e => ([], some e)
      | .ok b =>
        let (parts, status) := fieldParts cat enc echo name tag (size + b.length)
          (object.set f.name (echoField echo f item)) fs
        (b :: parts, status)

/-- `Encode` on a struct, field by field. -/
def encodeParts (cat : Catalog) (native : Native) (symbols : Symbols) (name : Bytes)
    (fields : List Field) (value : Json) : Except Status (List Bytes × Option Status) := do
  match ← rewrite name value with
  | .obj m => do
    checkKeys fields m
    let object ← setCounts (.obj m) fields
    .ok (fieldParts cat (encode cat native symbols fieldLevels) (echo cat fieldLevels) name none 0
      object fields)
  | _ => .error (invalid (utf8 "Expected an object for " ++ name))

/-- What is written field by field, as one payload. -/
def joinParts : List Bytes × Option Status → Except Status Bytes
  | (parts, none) => .ok parts.flatten
  | (_, some e) => .error e

/-- The default of a field is usable: its octets `b` are what is written in the place of the field,
and what `Describe` shows as the default is valid against the schema it shows it in. -/
structure DefaultUsable (cat : Catalog) (name : Bytes) (f : Field) (place : Nat)
    (parts : List Bytes) (b : Bytes) : Prop where
  written : parts[place]? = some b
  shown : ∀ item v, ((Describe cat name).get? "properties").bind (·.get? f.name) = some item →
    item.get? "default" = some v → Valid item v

/-- The types and defaults `PublicDefault` has a case for: of a flag enum only zero, and no alias
of an integer of 64 bits. -/
def HasPublic (cat : Catalog) (type : Bytes) (d : Json) : Prop :=
  (∀ base values, scalar? type = none → cat type = some (.enum base values true) →
    d.int? = some 0) ∧
  ∀ n signed width, IntegerType cat n type signed width → (n = 0 ∨ width ≠ 8) ∧ n < fieldLevels

/-- The last array of an object that a field counts has as many items as the field's default says,
and the field's type is written as a plain number. -/
def CountsDefault (cat : Catalog) (fields : List Field) (m : List (Bytes × Json)) (f : Field)
    (d : Json) : Prop :=
  (∃ g items, fields.reverse.find? (fun g => g.count = some f.name) = some g ∧
    Json.find g.name m = some (.arr items) ∧ d.int? = some (items.length : Int)) ∧
  ∃ n signed width, IntegerType cat n f.type signed width ∧ width ≠ 8 ∧ n < fieldLevels

/-! ## Field by field -/

/-- What the fields append are their parts, joined. -/
theorem encodeFields_eq_parts {cat : Catalog}
    {enc : Bytes → Option Json → Nat → Json → Except Status Bytes} {echo : Bytes → Json → Json}
    {name : Bytes} {tag : Option Json} {fs : List Field} : ∀ {size : Nat} {object : Json},
      encodeFields cat enc echo name tag size object fs =
        joinParts (fieldParts cat enc echo name tag size object fs) := by
  induction fs with
  | nil => exact fun {_ _} => rfl
  | cons f fs ih =>
    intro size object
    rw [encodeFields, fieldParts]
    cases fieldItem cat object f with
    | error e => rfl
    | ok r =>
      obtain ⟨item, object⟩ := r
      change encodeField enc name tag size object item f >>= _ = _
      cases hb : encodeField enc name tag size object item f with
      | error e =>
        dsimp only
        rw [hb]
        rfl
      | ok b =>
        simp only [hb]
        change encodeFields cat enc echo name tag _ _ fs >>= _ = _
        rw [ih]
        generalize fieldParts cat enc echo name tag _ _ fs = r
        obtain ⟨parts, _ | e⟩ := r
        · rfl
        · rfl

/-- **`Encode`, field by field.** -/
theorem encode_eq_parts {cat : Catalog} {native : Native} {symbols : Symbols} {name : Bytes}
    {fields : List Field} (hs : scalar? name = none) (hcat : cat name = some (.struct fields))
    (value : Json) : Encode cat native symbols name value =
      encodeParts cat native symbols name fields value >>= joinParts := by
  rw [Encode, levels, encode, hs]
  simp only [hcat, encodeParts]
  cases rewrite name value with
  | error e => rfl
  | ok value =>
    cases value with
    | obj m =>
      change encodeStruct cat _ _ name fields none 0 (.obj m) = _
      simp only [encodeStruct]
      change _ = (checkKeys fields m >>= fun _ => _) >>= joinParts
      cases checkKeys fields m with
      | error e => rfl
      | ok _ =>
        change setCounts (.obj m) fields >>= _ = (setCounts (.obj m) fields >>= _) >>= joinParts
        cases setCounts (.obj m) fields with
        | error e => rfl
        | ok object => exact encodeFields_eq_parts
    | null | bool | int | uint | float | str | arr => rfl

/-- The fields behind some are written behind what these wrote, with an object that holds what it
held but for their names. -/
theorem fieldParts_append {cat : Catalog}
    {enc : Bytes → Option Json → Nat → Json → Except Status Bytes} {echo : Bytes → Json → Json}
    {name : Bytes} {tag : Option Json} {fs : List Field} {before : List Field} :
    ∀ {size : Nat} {object : Json}, object.isObject = true →
      before.length ≤ (fieldParts cat enc echo name tag size object (before ++ fs)).1.length →
      ∃ pre object', pre.length = before.length ∧ object'.isObject = true ∧
        (∀ k, (∀ g ∈ before, g.name ≠ k) → object'.get? k = object.get? k) ∧
        fieldParts cat enc echo name tag size object (before ++ fs) =
          (pre ++ (fieldParts cat enc echo name tag (size + pre.flatten.length) object' fs).1,
            (fieldParts cat enc echo name tag (size + pre.flatten.length) object' fs).2) := by
  induction before with
  | nil => exact fun {_ object} hobject _ => ⟨[], object, rfl, hobject, fun _ _ => rfl, rfl⟩
  | cons f before ih =>
    intro size object hobject hlength
    rw [List.cons_append, fieldParts] at hlength ⊢
    cases hitem : fieldItem cat object f with
    | error e =>
      rw [hitem] at hlength
      simp at hlength
    | ok r =>
      obtain ⟨item, object₁⟩ := r
      rw [hitem] at hlength
      obtain ⟨hobject₁, -, hothers⟩ := fieldItem_eq_ok hobject hitem
      dsimp only at hlength ⊢
      cases hb : encodeField enc name tag size object₁ item f with
      | error e =>
        rw [hb] at hlength
        simp at hlength
      | ok b =>
        rw [hb] at hlength
        obtain ⟨m, rfl⟩ := Json.isObject_iff.1 hobject₁
        have hset : ((Json.obj m).set f.name (echoField echo f item)).isObject = true := rfl
        obtain ⟨pre, object', hpre, hobject', hkept, heq⟩ :=
          @ih (size + b.length) _ hset (by simpa using hlength)
        refine ⟨b :: pre, object', by rw [List.length_cons, List.length_cons, hpre], hobject',
          fun k hk => ?_, ?_⟩
        · rw [hkept k fun g hg => hk g (List.mem_cons_of_mem _ hg),
            Json.get?_set_of_ne (Ne.symm (hk f List.mem_cons_self)),
            hothers k (Ne.symm (hk f List.mem_cons_self))]
        · dsimp only
          rw [heq]
          simp only [List.flatten_cons, List.length_append, List.cons_append, Nat.add_assoc]

/-- A counter is set to the length of the last array it counts. -/
theorem get?_setCounts_self {k : Bytes} {fs : List Field} : ∀ {object object' : Json},
    object.isObject = true → setCounts object fs = .ok object' → k ∈ counts fs →
      ∃ g items, fs.reverse.find? (fun g => g.count = some k) = some g ∧
        object.get? g.name = some (.arr items) ∧ object'.get? k = some (.uint items.length) := by
  induction fs with
  | nil => exact fun {_ _} _ _ hk => absurd hk List.not_mem_nil
  | cons f fs ih =>
    intro object object' hobject h hk
    rw [List.reverse_cons, List.find?_append]
    simp only [setCounts] at h
    cases hc : f.count with
    | none =>
      rw [hc] at h
      obtain ⟨g, items, hg, hitems, hset⟩ := ih hobject h (by simpa [counts, hc] using hk)
      exact ⟨g, items, by rw [hg]; rfl, hitems, hset⟩
    | some c =>
      rw [hc] at h
      dsimp only at h
      split at h
      · next items hitems =>
        obtain ⟨m, rfl⟩ := Json.isObject_iff.1 hobject
        by_cases hlater : k ∈ counts fs
        · obtain ⟨g, items', hg, hitems', hset⟩ := ih rfl h hlater
          have hne : g.name ≠ c := by
            rintro rfl
            rw [Json.set, Json.get?_obj, Json.find_setKey_self] at hitems'
            cases hitems'
          rw [Json.get?_set_of_ne hne] at hitems'
          exact ⟨g, items', by rw [hg]; rfl, hitems', hset⟩
        · obtain rfl : k = c := by
            have hk : k ∈ c :: counts fs := by simpa [counts, hc] using hk
            exact (List.mem_cons.1 hk).resolve_right hlater
          refine ⟨f, items, ?_, hitems, ?_⟩
          · have hnone : fs.reverse.find? (fun g => g.count = some k) = none := by
              refine List.find?_eq_none.2 fun g hg hcount => hlater ?_
              exact List.mem_filterMap.2 ⟨g, List.mem_reverse.1 hg, by simpa using hcount⟩
            rw [hnone, Option.none_or, List.find?_cons_of_pos (by simp [hc])]
          · rw [get?_setCounts h hlater, Json.set, Json.get?_obj, Json.find_setKey_self]
      · cases h

end VppJson.Schema
