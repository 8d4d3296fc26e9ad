import VppJsonGateway.Modules

/-!
# The order of modules

The catalog of several modules does not depend on their order. A module adds entries to the two
tables of the catalog, its types and its methods, and what it adds is read from its document alone.
A method is in one module only; a type can be in several, whose definitions compare equal, so what
is needed is that equality is transitive there. It is not where integers meet floating-point
numbers: an integer too long for 53 bits equals the number that it rounds to, and so does another.
-/

namespace Lib.Json

/-! ## Equality -/

theorem forall₂_symm {α : Type} {R : α → α → Prop} {l l' : List α}
    (hR : ∀ x ∈ l, ∀ y, R x y → R y x) (h : List.Forall₂ R l l') : List.Forall₂ R l' l := by
  induction h with
  | nil => exact .nil
  | cons hxy _ ih =>
    exact .cons (hR _ List.mem_cons_self _ hxy) (ih fun x hx => hR x (List.mem_cons_of_mem _ hx))

theorem forall₂_trans {α : Type} {R : α → α → Prop} {l l' : List α} (h : List.Forall₂ R l l') :
    ∀ {l'' : List α}, (∀ x ∈ l, ∀ y ∈ l', ∀ z ∈ l'', R x y → R y z → R x z) →
      List.Forall₂ R l' l'' → List.Forall₂ R l l'' := by
  induction h with
  | nil =>
    intro l'' _ h'
    cases h'
    exact .nil
  | cons hxy _ ih =>
    intro l'' hR h'
    cases h' with
    | cons hyz h' =>
      refine .cons (hR _ List.mem_cons_self _ List.mem_cons_self _ List.mem_cons_self hxy hyz)
        (ih (fun x hx y hy z hz => ?_) h')
      exact hR x (List.mem_cons_of_mem _ hx) y (List.mem_cons_of_mem _ hy) z
        (List.mem_cons_of_mem _ hz)

section

variable {toDouble : Int → Double}

/-- Arrays are equal item by item. -/
theorem sameItems_iff : ∀ {l l' : List Json},
    same.sameItems toDouble l l' = true ↔ List.Forall₂ (fun x y => x.same toDouble y) l l' := by
  intro l
  induction l with
  | nil =>
    intro l'
    cases l' with
    | nil => exact ⟨fun _ => .nil, fun _ => rfl⟩
    | cons y l' => exact ⟨fun h => (by cases h), fun h => (by cases h)⟩
  | cons x l ih =>
    intro l'
    cases l' with
    | nil => exact ⟨fun h => (by cases h), fun h => (by cases h)⟩
    | cons y l' => rw [same.sameItems, Bool.and_eq_true, ih, List.forall₂_cons]

/-- Objects are equal member by member. -/
theorem sameMembers_iff : ∀ {m m' : List (Bytes × Json)},
    same.sameMembers toDouble m m' = true ↔
      List.Forall₂ (fun a b => a.1 = b.1 ∧ a.2.same toDouble b.2) m m' := by
  intro m
  induction m with
  | nil =>
    intro m'
    cases m' with
    | nil => exact ⟨fun _ => .nil, fun _ => rfl⟩
    | cons b m' => exact ⟨fun h => (by cases h), fun h => (by cases h)⟩
  | cons a m ih =>
    intro m'
    cases m' with
    | nil => exact ⟨fun h => (by cases h), fun h => (by cases h)⟩
    | cons b m' =>
      rw [same.sameMembers, Bool.and_eq_true, Bool.and_eq_true, decide_eq_true_iff, ih,
        List.forall₂_cons]

@[simp] theorem same_arr (l l' : List Json) : (Json.arr l).same toDouble (.arr l') = true ↔
    List.Forall₂ (fun x y => x.same toDouble y) l l' := by
  rw [same, sameItems_iff]

@[simp] theorem same_obj (m m' : List (Bytes × Json)) :
    (Json.obj m).same toDouble (.obj m') = true ↔
      List.Forall₂ (fun a b => a.1 = b.1 ∧ a.2.same toDouble b.2) m m' := by
  rw [same, sameMembers_iff]

/-- Equality is reflexive. -/
theorem same_refl (j : Json) : j.same toDouble j = true := by
  induction j using ind with
  | null => rfl
  | bool b => simp [same]
  | int i => simp [same, sameNumeral]
  | uint n => simp [same, sameNumeral]
  | float d => simp [same, sameNumeral]
  | str s => simp [same]
  | arr l ih => exact (same_arr l l).2 (List.forall₂_same.2 ih)
  | obj m ih => exact (same_obj m m).2 (List.forall₂_same.2 fun a ha => ⟨rfl, ih a ha⟩)

/-- Equality is symmetric. -/
theorem same_symm {a : Json} : ∀ {b : Json}, a.same toDouble b = true → b.same toDouble a = true := by
  induction a using ind with
  | null | bool | str | int | uint | float =>
    exact fun {b} h => (by cases b <;> simp_all [same, sameNumeral, eq_comm])
  | arr l ih =>
    intro b h
    cases b with
    | arr l' => exact (same_arr l' l).2 (forall₂_symm (fun x hx y => ih x hx) ((same_arr l l').1 h))
    | _ => simp [same, sameNumeral] at h
  | obj m ih =>
    intro b h
    cases b with
    | obj m' =>
      refine (same_obj m' m).2 (forall₂_symm (fun x hx y hxy => ?_) ((same_obj m m').1 h))
      exact ⟨hxy.1.symm, ih x hx hxy.2⟩
    | _ => simp [same, sameNumeral] at h

/-- No number and no collection. -/
def plain : Json → Bool
  | .null | .bool _ | .str _ => true
  | _ => false

/-- Equality with anything but a number or a container is identity. -/
theorem eq_of_same {a b : Json} (ha : a.plain = true) (h : a.same toDouble b = true) : b = a := by
  cases a <;> cases b <;> simp_all [same, sameNumeral, plain]

end

/-! ## Integers -/

/-- The numbers of a value are integers, of 64 bits. -/
def Integral : Json → Prop
  | .int i => -2 ^ 63 ≤ i ∧ i < 2 ^ 63
  | .uint n => n < 2 ^ 64
  | .float _ => False
  | .arr l => IntegralItems l
  | .obj m => IntegralMembers m
  | _ => True
where
  /-- `Integral` over the elements of an array. -/
  IntegralItems : List Json → Prop
    | [] => True
    | x :: l => Integral x ∧ IntegralItems l
  /-- `Integral` over the members of an object. -/
  IntegralMembers : List (Bytes × Json) → Prop
    | [] => True
    | (_, v) :: m => Integral v ∧ IntegralMembers m

@[simp] theorem integral_arr (l : List Json) : Integral (.arr l) ↔ ∀ x ∈ l, Integral x := by
  rw [Integral]
  induction l with
  | nil => simp [Integral.IntegralItems]
  | cons x l ih => simp [Integral.IntegralItems, ih]

@[simp] theorem integral_obj (m : List (Bytes × Json)) :
    Integral (.obj m) ↔ ∀ a ∈ m, Integral a.2 := by
  rw [Integral]
  induction m with
  | nil => simp [Integral.IntegralMembers]
  | cons a m ih => simp [Integral.IntegralMembers, ih]

/-- **Equality is transitive among values without floating-point numbers.** -/
theorem same_trans_of_integral {toDouble : Int → Double} {a : Json} : ∀ {b c : Json}, Integral a →
    Integral b → Integral c → a.same toDouble b = true → b.same toDouble c = true →
      a.same toDouble c = true := by
  induction a using ind with
  | null | bool | str =>
    intro b c _ _ _ hab hbc
    have hb : b = _ := eq_of_same (by simp [plain]) hab
    rwa [hb] at hbc
  | int i | uint n =>
    intro b c ha hb hc hab hbc
    cases b <;> cases c <;> simp_all [same, sameNumeral, Integral] <;> omega
  | float d => exact fun {b c} ha => absurd ha (by simp [Integral])
  | arr l ih =>
    intro b c ha hb hc hab hbc
    cases b with
    | arr l' =>
      cases c with
      | arr l'' =>
        rw [integral_arr] at ha hb hc
        rw [same_arr] at hab hbc ⊢
        exact forall₂_trans hab (fun x hx y hy z hz => ih x hx (ha x hx) (hb y hy) (hc z hz)) hbc
      | _ => simp [same, sameNumeral] at hbc
    | _ => simp [same, sameNumeral] at hab
  | obj m ih =>
    intro b c ha hb hc hab hbc
    cases b with
    | obj m' =>
      cases c with
      | obj m'' =>
        rw [integral_obj] at ha hb hc
        rw [same_obj] at hab hbc ⊢
        refine forall₂_trans hab (fun x hx y hy z hz hxy hyz => ?_) hbc
        exact ⟨hxy.1.trans hyz.1, ih x hx (ha x hx) (hb y hy) (hc z hz) hxy.2 hyz.2⟩
      | _ => simp [same, sameNumeral] at hbc
    | _ => simp [same, sameNumeral] at hab

/-! ## Tables -/

/-- No member has the key. -/
theorem find_of_forall_ne {k : Bytes} {m : List (Bytes × Json)} (h : ∀ a ∈ m, k ≠ a.1) :
    find k m = none := by
  induction m with
  | nil => rfl
  | cons a m ih =>
    rw [find, if_neg (h a List.mem_cons_self)]
    exact ih fun b hb => h b (List.mem_cons_of_mem _ hb)

/-- Objects are related member by member when their tables are. -/
theorem Sorted.forall₂ {R : Json → Json → Prop} {m : List (Bytes × Json)} (h : Sorted m) :
    ∀ {m' : List (Bytes × Json)}, Sorted m' →
      (∀ k, Option.Rel R (find k m) (find k m')) →
        List.Forall₂ (fun a b => a.1 = b.1 ∧ R a.2 b.2) m m' := by
  induction m with
  | nil =>
    intro m' _ hrel
    cases m' with
    | nil => exact .nil
    | cons b m' =>
      have hb := hrel b.1
      rw [find, find, if_pos rfl] at hb
      cases hb
  | cons a m ih =>
    intro m' h' hrel
    obtain ⟨ha, hm⟩ := List.pairwise_cons.1 h
    have hnone : ∀ {k m}, (∀ x ∈ m, k < x.1) → find k m = none := fun {k m} hlt =>
      find_of_forall_ne fun x hx hk => key_lt_irrefl _ (hk ▸ hlt x hx)
    cases m' with
    | nil =>
      have ha' := hrel a.1
      rw [find, find, if_pos rfl] at ha'
      cases ha'
    | cons b m' =>
      obtain ⟨hb, hm'⟩ := List.pairwise_cons.1 h'
      have hkey : a.1 = b.1 := by
        by_contra hne
        rcases key_lt_or_lt_of_ne hne with hlt | hlt
        · have hrel := hrel a.1
          have hout : find a.1 (b :: m') = none := hnone fun x hx => by
            rcases List.mem_cons.1 hx with rfl | hx
            · exact hlt
            · exact key_lt_trans hlt (hb x hx)
          rw [find, if_pos rfl, hout] at hrel
          cases hrel
        · have hrel := hrel b.1
          have hout : find b.1 (a :: m) = none := hnone fun x hx => by
            rcases List.mem_cons.1 hx with rfl | hx
            · exact hlt
            · exact key_lt_trans hlt (ha x hx)
          rw [hout, find, if_pos rfl] at hrel
          cases hrel
      have hvalue : R a.2 b.2 := by
        have hrel := hrel a.1
        rw [find, find, if_pos rfl, if_pos hkey] at hrel
        cases hrel with
        | some hR => exact hR
      refine .cons ⟨hkey, hvalue⟩ (ih hm hm' fun k => ?_)
      by_cases hk : k = a.1
      · rw [hk, hnone ha, hkey, hnone hb]
        exact .none
      · have hrel := hrel k
        rwa [find, find, if_neg hk, if_neg (hkey ▸ hk)] at hrel

end Lib.Json

namespace VppJson.Schema

open Lib Lib.Registry

/-! ## What a module adds -/

/-- What a module adds to the catalog. -/
structure Parts where
  types : List (Bytes × Json)
  methods : List (Bytes × Json)

/-- The method of a service, with its name in the catalog. -/
def methodOf (messages : List Json) (module : Bytes) (item : Bytes × Json) :
    Except Failure (Bytes × Json) := do
  if !identifier item.1 then refuse "Unsafe message name"
  let method ← membersOf item.2
  let method ← methodFor messages module item.1 method
  .ok (utf8 "vpp." ++ item.1, method)

/-- The types of a document, in the order in which `AddModule` adds them. -/
def typesOf (document : Json) : Except Failure (List (Bytes × Json)) := do
  let definitions ← [utf8 "types", utf8 "unions", utf8 "messages"].mapM fun category =>
    (elements (valueOf category document)).mapM (definitionOf category)
  let enums ← [utf8 "enums", utf8 "enumflags"].mapM fun category =>
    (elements (valueOf category document)).mapM (enumOf category)
  let aliases ← itemsOf (valueOf "aliases" document)
  let aliases ← aliases.mapM aliasOf
  .ok (definitions.flatten ++ enums.flatten ++ aliases)

/-- What a module adds, read from its document. -/
def partsOf (m : Json × Bytes) : Except Failure Parts :=
  match identifier m.2, m.1.get? "messages", m.1.get? "services" with
  | true, some (.arr messages), some services => do
    let types ← typesOf m.1
    let services ← itemsOf services
    let methods ← services.mapM (methodOf messages m.2)
    .ok ⟨types, methods⟩
  | _, _, _ => refuse "Invalid VPP API module"

/-- A method is added where there is none of its name. -/
def putMethod (c : Listing) (e : Bytes × Json) : Except Failure Listing :=
  if (Json.find e.1 c.methods).isSome then refuse (utf8 "Duplicate VPP method: " ++ e.1)
  else .ok { c with methods := Json.setKey e.1 e.2 c.methods }

section

variable {toDouble : Int → Double} {c c' : Listing}

/-- The table of some members. -/
def table (m : List (Bytes × Json)) : Bytes → Option Json := fun k => Json.find k m

/-- An object is a table of its members. -/
theorem table_setKey (m : List (Bytes × Json)) (e : Bytes × Json) :
    table (Json.setKey e.1 e.2 m) = put (table m) e := by
  funext k
  by_cases hk : k = e.1
  · subst hk
    rw [put_self]
    exact Json.find_setKey_self _ _ _
  · rw [put_of_ne _ hk]
    exact Json.find_setKey_of_ne hk _ _

/-- A catalog with one more type. -/
def Listing.withType (c : Listing) (e : Bytes × Json) : Listing :=
  { c with types := Json.setKey e.1 e.2 c.types }

/-- A catalog with one more method. -/
def Listing.withMethod (c : Listing) (e : Bytes × Json) : Listing :=
  { c with methods := Json.setKey e.1 e.2 c.methods }

/-- Definitions compare equal. -/
def Equal (toDouble : Int → Double) (v w : Json) : Prop := v.same toDouble w = true

/-- Methods of one name are refused, whatever they are. -/
def Never (_ _ : Json) : Prop := False

/-- A type is added if its name is an identifier and no other definition has it. -/
theorem addType_eq_ok (c : Listing) (e : Bytes × Json) (c' : Listing) :
    addType toDouble c e = .ok c' ↔
      identifier e.1 = true ∧ Accepts (Equal toDouble) (table c.types) e ∧ c' = c.withType e := by
  rw [addType]
  cases hname : identifier e.1 with
  | false => exact ⟨fun h => (by cases h), fun h => (by cases h.1)⟩
  | true =>
    rw [if_neg (by decide)]
    cases hfind : Json.find e.1 c.types with
    | none =>
      have haccepts : Accepts (Equal toDouble) (table c.types) e := fun old hold => by
        rw [table, hfind] at hold
        cases hold
      exact ⟨fun h => ⟨rfl, haccepts, (Except.ok.inj h).symm⟩,
        fun h => congrArg Except.ok h.2.2.symm⟩
    | some old =>
      have hiff : Accepts (Equal toDouble) (table c.types) e ↔ old.same toDouble e.2 = true :=
        ⟨fun h => h old hfind, fun h old' hold => by
          rw [table, hfind] at hold
          exact Option.some.inj hold ▸ h⟩
      rw [hiff]
      dsimp only
      cases hsame : old.same toDouble e.2 with
      | false => exact ⟨fun h => (by cases h), fun h => (by cases h.2.1)⟩
      | true =>
        exact ⟨fun h => ⟨rfl, rfl, (Except.ok.inj h).symm⟩,
          fun h => congrArg Except.ok h.2.2.symm⟩

/-- A method is added if no other has its name. -/
theorem putMethod_eq_ok (c : Listing) (e : Bytes × Json) (c' : Listing) :
    putMethod c e = .ok c' ↔
      True ∧ Accepts Never (table c.methods) e ∧ c' = c.withMethod e := by
  rw [putMethod]
  cases hfind : Json.find e.1 c.methods with
  | none =>
    have haccepts : Accepts Never (table c.methods) e := fun old hold => by
      rw [table, hfind] at hold
      cases hold
    exact ⟨fun h => ⟨trivial, haccepts, (Except.ok.inj h).symm⟩,
      fun h => congrArg Except.ok h.2.2.symm⟩
  | some old => exact ⟨fun h => (by cases h), fun h => (h.2.1 old hfind).elim⟩

/-- `addMethod` reads a method and adds it. -/
theorem addMethod_eq_ok {messages : List Json} {module : Bytes} (c : Listing)
    (item : Bytes × Json) (c' : Listing) : addMethod messages module c item = .ok c' ↔
      ∃ e, methodOf messages module item = .ok e ∧ putMethod c e = .ok c' := by
  rw [addMethod, methodOf]
  cases identifier item.1 with
  | false => exact ⟨fun h => (by cases h), fun ⟨_, h, _⟩ => (by cases h)⟩
  | true =>
    cases membersOf item.2 with
    | error f => exact ⟨fun h => (by cases h), fun ⟨_, h, _⟩ => (by cases h)⟩
    | ok method =>
      -- The duplicate comes first in the source; both must be passed.
      cases hsome : (Json.find (utf8 "vpp." ++ item.1) c.methods).isSome <;>
        cases hmethod : methodFor messages module item.1 method <;>
        simp [hsome, hmethod, putMethod, refuse, bind, Except.bind]

/-- What a module adds is added: first its types, then its methods. -/
def Listing.extend (toDouble : Int → Double) (c : Listing) (p : Parts) : Except Failure Listing := do
  let c ← p.types.foldlM (addType toDouble) c
  p.methods.foldlM putMethod c

/-- **`AddModule` reads what a module adds, and adds it.** -/
theorem AddModule_eq_ok (c : Listing) (m : Json × Bytes) (c' : Listing) :
    AddModule toDouble m.1 m.2 c = .ok c' ↔
      ∃ p, partsOf m = .ok p ∧ c.extend toDouble p = .ok c' := by
  rw [AddModule, partsOf]
  cases identifier m.2 with
  | false => exact ⟨fun h => (by cases h), fun ⟨_, h, _⟩ => (by cases h)⟩
  | true =>
    cases m.1.get? "messages" with
    | none => exact ⟨fun h => (by cases h), fun ⟨_, h, _⟩ => (by cases h)⟩
    | some messages =>
      cases messages with
      | arr messages =>
        cases m.1.get? "services" with
        | none => exact ⟨fun h => (by cases h), fun ⟨_, h, _⟩ => (by cases h)⟩
        | some services =>
          simp only [bind_eq_ok, typesOf, Listing.extend, foldlM_read_flatten,
            foldlM_read fun _ _ _ => bind_eq_ok, foldlM_read addMethod_eq_ok]
          constructor
          · intro ⟨c₁, ⟨definitions, hdefinitions, h₁⟩, c₂, ⟨enums, henums, h₂⟩, items, hitems, c₃,
              ⟨aliases, haliases, h₃⟩, services, hservices, methods, hmethods, h₄⟩
            refine ⟨_, ⟨_, ⟨_, hdefinitions, _, henums, _, hitems, _, haliases, rfl⟩, _, hservices,
              _, hmethods, rfl⟩, c₃, ?_, h₄⟩
            rw [List.foldlM_append, List.foldlM_append]
            exact bind_eq_ok.2 ⟨c₂, bind_eq_ok.2 ⟨c₁, h₁, h₂⟩, h₃⟩
          · intro ⟨p, ⟨types, ⟨definitions, hdefinitions, enums, henums, items, hitems, aliases,
              haliases, htypes⟩, services, hservices, methods, hmethods, hp⟩, c₃, hfold, h₄⟩
            cases hp
            cases htypes
            rw [List.foldlM_append, List.foldlM_append] at hfold
            obtain ⟨c₂, hfold, h₃⟩ := bind_eq_ok.1 hfold
            obtain ⟨c₁, h₁, h₂⟩ := bind_eq_ok.1 hfold
            exact ⟨c₁, ⟨_, hdefinitions, h₁⟩, c₂, ⟨_, henums, h₂⟩, _, hitems, c₃,
              ⟨_, haliases, h₃⟩, _, hservices, _, hmethods, h₄⟩
      | _ => exact ⟨fun h => (by cases h), fun ⟨_, h, _⟩ => (by cases h)⟩

/-- Members with several set, one after the other. -/
def putAll (m : List (Bytes × Json)) (es : List (Bytes × Json)) : List (Bytes × Json) :=
  es.foldl (fun m e => Json.setKey e.1 e.2 m) m

theorem putAll_append (m es es' : List (Bytes × Json)) :
    putAll m (es ++ es') = putAll (putAll m es) es' := List.foldl_append

/-- Adding members one by one fills the table one by one. -/
theorem table_putAll (m es : List (Bytes × Json)) : table (putAll m es) = es.foldl put (table m) :=
  table_foldl table_setKey es m

/-- Members are kept in order. -/
theorem sorted_putAll (es : List (Bytes × Json)) : ∀ {m : List (Bytes × Json)}, Json.Sorted m →
    Json.Sorted (putAll m es) := by
  induction es with
  | nil => exact fun hm => hm
  | cons e es ih => exact fun hm => ih hm.setKey

/-- The types of a document are added if each is, in turn. -/
theorem addTypes_eq_ok {es : List (Bytes × Json)} : es.foldlM (addType toDouble) c = .ok c' ↔
    (∀ e ∈ es, identifier e.1 = true) ∧
      Registered (Equal toDouble) (table c.types) es (table c'.types) ∧
        c' = { c with types := putAll c.types es } := by
  have hfold : ∀ (es) (c : Listing),
      es.foldl Listing.withType c = { c with types := putAll c.types es } := by
    intro es
    induction es with
    | nil => exact fun c => rfl
    | cons e es ih => exact fun c => ih (c.withType e)
  rw [← hfold]
  exact foldlM_registered (fun c e => table_setKey c.types e) addType_eq_ok es

/-- The methods of a document are added if each is, in turn. -/
theorem putMethods_eq_ok {es : List (Bytes × Json)} : es.foldlM putMethod c = .ok c' ↔
    Registered Never (table c.methods) es (table c'.methods) ∧
      c' = { c with methods := putAll c.methods es } := by
  have hfold : ∀ (es) (c : Listing),
      es.foldl Listing.withMethod c = { c with methods := putAll c.methods es } := by
    intro es
    induction es with
    | nil => exact fun c => rfl
    | cons e es ih => exact fun c => ih (c.withMethod e)
  rw [← hfold]
  exact (foldlM_registered (fun c e => table_setKey c.methods e) putMethod_eq_ok es).trans
    ⟨fun h => h.2, fun h => ⟨fun _ _ => trivial, h⟩⟩

/-- What can be added to a catalog, and the catalog then. -/
structure Extends (toDouble : Int → Double) (c : Listing) (p : Parts) (c' : Listing) : Prop where
  names : ∀ e ∈ p.types, identifier e.1 = true
  types : Registered (Equal toDouble) (table c.types) p.types (table c'.types)
  methods : Registered Never (table c.methods) p.methods (table c'.methods)
  types_eq : c'.types = putAll c.types p.types
  methods_eq : c'.methods = putAll c.methods p.methods

/-- What `extend` adds is registered in the two tables. -/
theorem extend_eq_ok {p : Parts} : c.extend toDouble p = .ok c' ↔ Extends toDouble c p c' := by
  rw [Listing.extend, bind_eq_ok]
  constructor
  · intro ⟨c₁, hc₁, hc'⟩
    obtain ⟨hnames, htypes, rfl⟩ := addTypes_eq_ok.1 hc₁
    obtain ⟨hmethods, rfl⟩ := putMethods_eq_ok.1 hc'
    exact ⟨hnames, htypes, hmethods, rfl, rfl⟩
  · intro h
    obtain ⟨types, methods⟩ := c'
    obtain rfl : types = putAll c.types p.types := h.types_eq
    obtain rfl : methods = putAll c.methods p.methods := h.methods_eq
    exact ⟨⟨_, c.methods⟩, addTypes_eq_ok.2 ⟨h.names, h.types, rfl⟩,
      putMethods_eq_ok.2 ⟨h.methods, rfl⟩⟩

/-- What several modules add. -/
def joined (ps : List Parts) : Parts := ⟨ps.flatMap (·.types), ps.flatMap (·.methods)⟩

/-- The first document is added before the others. -/
theorem extends_cons {p : Parts} {ps : List Parts} : Extends toDouble c (joined (p :: ps)) c' ↔
    ∃ c₁, Extends toDouble c p c₁ ∧ Extends toDouble c₁ (joined ps) c' := by
  constructor
  · intro h
    obtain ⟨hnames, hnames'⟩ := List.forall_mem_append.1 h.names
    obtain ⟨t, htypes, htypes'⟩ := h.types.split
    obtain ⟨u, hmethods, hmethods'⟩ := h.methods.split
    obtain rfl : t = table (putAll c.types p.types) :=
      htypes.eq_foldl.trans (table_putAll _ _).symm
    obtain rfl : u = table (putAll c.methods p.methods) :=
      hmethods.eq_foldl.trans (table_putAll _ _).symm
    exact ⟨⟨_, _⟩, ⟨hnames, htypes, hmethods, rfl, rfl⟩, ⟨hnames', htypes', hmethods',
      h.types_eq.trans (putAll_append _ _ _), h.methods_eq.trans (putAll_append _ _ _)⟩⟩
  · intro ⟨c₁, h₁, h⟩
    refine ⟨List.forall_mem_append.2 ⟨h₁.names, h.names⟩, h₁.types.append h.types,
      h₁.methods.append h.methods, ?_, ?_⟩
    · rw [h.types_eq, h₁.types_eq]
      exact (putAll_append _ _ _).symm
    · rw [h.methods_eq, h₁.methods_eq]
      exact (putAll_append _ _ _).symm

/-- Documents are added one by one as they are all at once. -/
theorem extends_eq_ok {ps : List Parts} : ∀ {c : Listing},
    ps.foldlM (Listing.extend toDouble) c = .ok c' ↔ Extends toDouble c (joined ps) c' := by
  induction ps with
  | nil =>
    intro c
    constructor
    · intro h
      cases h
      exact ⟨fun e he => (by cases he), .nil _, .nil _, rfl, rfl⟩
    · intro h
      obtain ⟨types, methods⟩ := c'
      obtain rfl : types = c.types := h.types_eq
      obtain rfl : methods = c.methods := h.methods_eq
      rfl
  | cons p ps ih =>
    intro c
    rw [List.foldlM_cons, bind_eq_ok, extends_cons]
    simp only [extend_eq_ok, ih]

/-- **The catalog of several modules**: what they add is read, and registered. -/
theorem addModules_eq_ok {modules : List (Json × Bytes)} :
    addModules toDouble modules = .ok c' ↔
      ∃ ps, modules.mapM partsOf = .ok ps ∧ Extends toDouble {} (joined ps) c' := by
  have hread := @AddModule_eq_ok toDouble
  rw [addModules, foldlM_read hread]
  simp only [extends_eq_ok]

/-! ## Another order -/

/-- The types that are in some documents. -/
def typesIn (modules : List (Json × Bytes)) : List (Bytes × Json) :=
  modules.flatMap fun m =>
    match partsOf m with
    | .ok p => p.types
    | .error _ => []

/-- Equality is transitive on the definitions that some documents have for one type. -/
def Comparable (toDouble : Int → Double) (modules : List (Json × Bytes)) : Prop :=
  ∀ a ∈ typesIn modules, ∀ b ∈ typesIn modules, ∀ c ∈ typesIn modules, a.1 = b.1 → b.1 = c.1 →
    a.2.same toDouble b.2 = true → b.2.same toDouble c.2 = true → a.2.same toDouble c.2 = true

/-- The types of the documents are those of their parts. -/
theorem typesIn_eq {modules : List (Json × Bytes)} {ps : List Parts}
    (h : modules.mapM partsOf = .ok ps) : typesIn modules = (joined ps).types := by
  have hall := mapM_eq_ok.1 h
  clear h
  induction hall with
  | nil => rfl
  | @cons m p modules ps hp _ ih =>
    have hcons : typesIn (m :: modules) = p.types ++ typesIn modules := by
      simp only [typesIn, List.flatMap_cons, hp]
    rw [hcons, ih]
    rfl

/-- The parts of documents in another order are the same parts in another order. -/
theorem joined_perm {ps ps' : List Parts} (h : ps.Perm ps') :
    (joined ps).types.Perm (joined ps').types ∧ (joined ps).methods.Perm (joined ps').methods :=
  ⟨h.flatMap_right _, h.flatMap_right _⟩

theorem coherent_never (es : List (Bytes × Json)) : Coherent Never es :=
  ⟨fun _ _ h => h, fun _ _ _ _ _ _ _ _ h => h.elim⟩

/-- One order that succeeds makes another succeed. -/
theorem addModules_perm {modules modules' : List (Json × Bytes)} (hperm : modules.Perm modules')
    (hcomparable : Comparable toDouble modules) (h : addModules toDouble modules = .ok c) :
    ∃ c', addModules toDouble modules' = .ok c' := by
  obtain ⟨ps, hps, hextends⟩ := addModules_eq_ok.1 h
  obtain ⟨ps', hps', hpermParts⟩ := mapM_perm hperm hps
  obtain ⟨htypes, hmethods⟩ := joined_perm hpermParts
  have hcoherent : Coherent (Equal toDouble) (joined ps).types :=
    ⟨fun _ _ => Json.same_symm, typesIn_eq hps ▸ hcomparable⟩
  obtain ⟨t, ht⟩ := hextends.types.perm hcoherent htypes
  obtain ⟨u, hu⟩ := hextends.methods.perm (coherent_never _) hmethods
  refine ⟨⟨putAll [] (joined ps').types, putAll [] (joined ps').methods⟩,
    addModules_eq_ok.2 ⟨ps', hps', ?_⟩⟩
  obtain rfl : t = table (putAll [] (joined ps').types) :=
    ht.eq_foldl.trans (table_putAll [] _).symm
  obtain rfl : u = table (putAll [] (joined ps').methods) :=
    hu.eq_foldl.trans (table_putAll [] _).symm
  exact ⟨fun e he => hextends.names e (htypes.mem_iff.2 he), ht, hu, rfl, rfl⟩

/-- Two orders that succeed build the same catalog. -/
theorem same_of_addModules {modules modules' : List (Json × Bytes)} (hperm : modules.Perm modules')
    (hcomparable : Comparable toDouble modules) (h : addModules toDouble modules = .ok c)
    (h' : addModules toDouble modules' = .ok c') :
    (Json.obj c.types).same toDouble (.obj c'.types) = true ∧ c.methods = c'.methods := by
  obtain ⟨ps, hps, hextends⟩ := addModules_eq_ok.1 h
  obtain ⟨ps₁, hps₁, hextends'⟩ := addModules_eq_ok.1 h'
  obtain ⟨ps', hps', hpermParts⟩ := mapM_perm hperm hps
  obtain rfl := Except.ok.inj (hps₁.symm.trans hps')
  obtain ⟨htypes, hmethods⟩ := joined_perm hpermParts
  have hcoherent : Coherent (Equal toDouble) (joined ps).types :=
    ⟨fun _ _ => Json.same_symm, typesIn_eq hps ▸ hcomparable⟩
  have hsorted : ∀ {m es}, m = putAll [] es → Json.Sorted m := fun {m es} hm =>
    hm ▸ sorted_putAll es .nil
  have htypesRel := hextends.types.same_of_perm Json.same_refl hcoherent htypes hextends'.types
  have hequal : Coherent Eq (joined ps).methods :=
    ⟨fun _ _ => Eq.symm, fun _ _ _ _ _ _ _ _ => Eq.trans⟩
  have hmethodsRel := (hextends.methods.mono fun _ _ h => h.elim).same_of_perm (fun _ => rfl)
    hequal hmethods (hextends'.methods.mono fun _ _ h => h.elim)
  constructor
  · exact (Json.same_obj _ _).2
      ((hsorted hextends.types_eq).forall₂ (hsorted hextends'.types_eq) htypesRel)
  · have hall := (hsorted hextends.methods_eq).forall₂ (hsorted hextends'.methods_eq) hmethodsRel
    refine List.forall₂_eq_eq_eq ▸ hall.imp fun a b hab => Prod.ext hab.1 hab.2

/-- **The order of modules does not matter** where equality is transitive on the definitions that
the documents have for one type: all succeed in one order iff they do in the other, and the
catalogs are equal then. -/
theorem modules_perm (toDouble : Int → Double) (modules modules' : List (Json × Bytes))
    (hperm : modules.Perm modules') (hcomparable : Comparable toDouble modules) :
    ((∃ c, addModules toDouble modules = .ok c) ↔ ∃ c', addModules toDouble modules' = .ok c') ∧
      ∀ c c', addModules toDouble modules = .ok c → addModules toDouble modules' = .ok c' →
        (Json.obj c.types).same toDouble (.obj c'.types) = true ∧ c.methods = c'.methods := by
  have hmem : ∀ {e}, e ∈ typesIn modules' → e ∈ typesIn modules := fun he =>
    (hperm.flatMap_right _).mem_iff.2 he
  have hcomparable' : Comparable toDouble modules' := fun a ha b hb c hc =>
    hcomparable a (hmem ha) b (hmem hb) c (hmem hc)
  refine ⟨⟨fun ⟨c, h⟩ => addModules_perm hperm hcomparable h,
    fun ⟨c', h⟩ => addModules_perm hperm.symm hcomparable' h⟩, fun c c' h h' => ?_⟩
  exact same_of_addModules hperm hcomparable h h'

/-- Without floating-point numbers equality is transitive. -/
theorem comparable_of_integral {modules : List (Json × Bytes)}
    (h : ∀ e ∈ typesIn modules, e.2.Integral) : Comparable toDouble modules :=
  fun a ha b hb c hc _ _ => Json.same_trans_of_integral (h a ha) (h b hb) (h c hc)

end

/-- A document of one type with one field, whose default is given. -/
def defaulted (value : Json) : Json :=
  .obj [(utf8 "messages", .arr []), (utf8 "services", .obj []),
    (utf8 "types", .arr [.arr [.str "t", .arr [.str "f64", .str "f", .obj [(utf8 "default", value)]]]])]

/-- The floating-point number `2 ^ 53`, to which `2 ^ 53 + 1` rounds. -/
def rounded : Double := ⟨utf8 "9007199254740992.0", by decide +kernel⟩

/-- Two documents that define one type: in either order they build the same catalog. -/
theorem modules_perm_swap : ∃ c c',
    addModules (fun _ => rounded) [(defaulted (.uint 1), "a"), (defaulted (.uint 1), "b")] = .ok c ∧
    addModules (fun _ => rounded) [(defaulted (.uint 1), "b"), (defaulted (.uint 1), "a")] = .ok c' ∧
    (Json.obj c.types).same (fun _ => rounded) (.obj c'.types) = true ∧ c.methods = c'.methods := by
  have hintegral : ∀ e ∈ typesIn [(defaulted (.uint 1), utf8 "a"), (defaulted (.uint 1), utf8 "b")],
      e.2.Integral := by
    intro e he
    have htypes : typesIn [(defaulted (.uint 1), utf8 "a"), (defaulted (.uint 1), utf8 "b")] =
      List.replicate 2 (utf8 "vl_api_t_t", .obj [(utf8 "fields", .arr [.obj
        [(utf8 "default", .uint 1), (utf8 "name", .str "f"), (utf8 "type", .str "f64")]]),
          (utf8 "kind", .str "struct")]) := by rfl
    rw [htypes] at he
    obtain rfl := List.eq_of_mem_replicate he
    simp [Json.Integral, Json.Integral.IntegralMembers, Json.Integral.IntegralItems]
  have hall := modules_perm (fun _ => rounded) _ _ (.swap _ _ []) (comparable_of_integral hintegral)
  obtain ⟨hiff, hsame⟩ := hall
  have hone : ∃ c, addModules (fun _ => rounded)
      [(defaulted (.uint 1), "a"), (defaulted (.uint 1), "b")] = .ok c := ⟨_, rfl⟩
  obtain ⟨c, hc⟩ := hone
  obtain ⟨c', hc'⟩ := hiff.1 ⟨c, hc⟩
  exact ⟨c, c', hc, hc', hsame c c' hc hc'⟩

/-- A document whose default is an integer, one where it is the number that this rounds to, and one
where it is another integer that rounds to it. -/
def exact : Json × Bytes := (defaulted (.uint (2 ^ 53)), "a")
@[inherit_doc exact] def float : Json × Bytes := (defaulted (.float rounded), "b")
@[inherit_doc exact] def inexact : Json × Bytes := (defaulted (.uint (2 ^ 53 + 1)), "c")

/-- The three documents agree in one order and not in another. -/
theorem modules_perm_rounded : [exact, float, inexact].Perm [exact, inexact, float] ∧
    (∃ c, addModules (fun _ => rounded) [exact, float, inexact] = .ok c) ∧
      ¬ ∃ c', addModules (fun _ => rounded) [exact, inexact, float] = .ok c' := by
  have hok : ∀ {x : Except Failure Listing}, x.isOk = true ↔ ∃ c, x = .ok c := fun {x} => by
    cases x with
    | error => exact ⟨fun h => (by cases h), fun ⟨_, h⟩ => (by cases h)⟩
    | ok c => exact ⟨fun _ => ⟨c, rfl⟩, fun _ => rfl⟩
  refine ⟨.cons _ (.swap _ _ []), ?_⟩
  rw [← hok, ← hok]
  decide +kernel

end VppJson.Schema
