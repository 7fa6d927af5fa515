import CatalogQuery.Proofs.Json.Arrays
import CatalogQuery.Write.Values
import Mathlib.Data.List.Forall2

/-!
# Columns with several values

What is stored for the users or options that a value names. Main statement: for users it is the
array of those named, unless one of them is dropped on the way, and for options it is their array if
they come as one.
-/

namespace CatalogQuery

/-! ## Users -/

namespace Users

/-- Whether a value is the name of a user, or a record with the name of a user as its id. -/
inductive NamesOne : Json → String → Prop where
  | text (u : String) : NamesOne (.str u) u
  | record {members : Json.Members} {u : String} (h : Json.find "id" members = some (.str u)) :
    NamesOne (.obj members) u

/-- The users that a value names, in order. A text that begins like an array has to be one. -/
inductive Named : Json → List String → Prop where
  | nobody : Named (.str "") []
  | text {u : String} (hu : u ≠ "") (h : isList u = false) : Named (.str u) [u]
  | listed {s : String} {items : List Json} {us : List String} (hs : isList s = true)
    (hitems : Json.parse s = some (.arr items)) (h : List.Forall₂ NamesOne items us) :
    Named (.str s) us
  | record {members : Json.Members} {u : String} (h : NamesOne (.obj members) u) :
    Named (.obj members) [u]
  | items {items : List Json} {us : List String} (h : List.Forall₂ NamesOne items us) :
    Named (.arr items) us

/-- Whether some item of a list names nobody. -/
def HasNobody (items : List Json) : Prop := ∃ item ∈ items, ∀ u, ¬NamesOne item u

/-- Whether somebody in a value is dropped: it is a record by itself, an item of it names nobody, or
it begins like an array and is none. -/
inductive Drops : Json → Prop where
  | record (members : Json.Members) : Drops (.obj members)
  | item {items : List Json} (h : HasNobody items) : Drops (.arr items)
  | listed {s : String} {items : List Json} (hs : isList s = true)
    (hitems : Json.parse s = some (.arr items)) (h : HasNobody items) : Drops (.str s)
  | unlisted {s : String} (hs : isList s = true) (h : ∀ items, Json.parse s ≠ some (.arr items)) :
    Drops (.str s)

theorem usernameOf_eq_some {item : Json} {u : String} :
    usernameOf item = some u ↔ NamesOne item u := by
  constructor
  · intro h
    cases item with
    | str s =>
      cases h
      exact .text u
    | obj members =>
      obtain ⟨v, hv, hu⟩ := Option.bind_eq_some_iff.1 h
      cases v with
      | str s =>
        cases hu
        exact .record hv
      | null | bool | num | arr | obj => cases hu
    | null | bool | num | arr => cases h
  · rintro (_ | h)
    · rfl
    · rw [usernameOf, h]
      rfl

theorem usernameOf_eq_none {item : Json} :
    usernameOf item = none ↔ ∀ u, ¬NamesOne item u := by
  simp only [← usernameOf_eq_some, Option.eq_none_iff_forall_ne_some, ne_eq]

theorem not_hasNobody {items : List Json} {us : List String}
    (h : List.Forall₂ NamesOne items us) : ¬HasNobody items := by
  rintro ⟨item, hmem, hnobody⟩
  induction h with
  | nil => cases hmem
  | cons hone _ ih =>
    rcases List.mem_cons.1 hmem with rfl | hmem
    · exact hnobody _ hone
    · exact ih hmem

/-- The users found among some items are those that the items name, unless one of them names nobody.
-/
theorem names_filterMap_iff {items : List Json} :
    List.Forall₂ NamesOne items (items.filterMap usernameOf) ↔ ¬HasNobody items := by
  refine ⟨not_hasNobody, fun h => ?_⟩
  induction items with
  | nil => exact .nil
  | cons item items ih =>
    cases hone : usernameOf item with
    | none => exact absurd ⟨item, List.mem_cons_self, usernameOf_eq_none.1 hone⟩ h
    | some u =>
      rw [List.filterMap_cons, hone]
      refine .cons (usernameOf_eq_some.1 hone) (ih ?_)
      rintro ⟨other, hmem, hnobody⟩
      exact h ⟨other, List.mem_cons_of_mem _ hmem, hnobody⟩

/-- So are the users found in a text that begins like an array, as long as it is one. -/
theorem named_of_isList {s : String} (hs : isList s = true) :
    Named (.str s) (usernames (.str s)) ↔ ¬Drops (.str s) := by
  by_cases hparse : ∃ items, Json.parse s = some (.arr items)
  · obtain ⟨items, hitems⟩ := hparse
    have husers : usernames (.str s) = items.filterMap usernameOf := by
      rw [usernames, hs, hitems]
      rfl
    rw [husers]
    constructor
    · rintro hnamed (_ | _ | ⟨-, hitems', hnobody⟩ | ⟨-, hnone⟩)
      · have hnames : List.Forall₂ NamesOne items (items.filterMap usernameOf) := by
          generalize items.filterMap usernameOf = us at hnamed
          rcases hnamed with _ | ⟨_, hlist⟩ | ⟨-, hitems'', hnames⟩
          · cases hs
          · cases hs.symm.trans hlist
          · cases hitems.symm.trans hitems''
            exact hnames
        cases hitems.symm.trans hitems'
        exact names_filterMap_iff.1 hnames hnobody
      · exact hnone items hitems
    · intro h
      exact .listed hs hitems (names_filterMap_iff.2 fun hnobody => h (.listed hs hitems hnobody))
  · have hnone : ∀ items, Json.parse s ≠ some (.arr items) := fun items h => hparse ⟨items, h⟩
    refine iff_of_false ?_ fun h => h (.unlisted hs hnone)
    generalize usernames (.str s) = us
    rintro (_ | ⟨_, hlist⟩ | ⟨-, hitems, -⟩)
    · cases hs
    · cases hs.symm.trans hlist
    · exact hnone _ hitems

/-- The users found in a text, in a list or in a record are those that it names, unless somebody in
it is dropped. -/
theorem named_usernames_iff {v : Json}
    (hkind : v.isStr = true ∨ v.isArr = true ∨ ∃ members, v = .obj members) :
    Named v (usernames v) ↔ ¬Drops v := by
  cases v with
  | null | bool | num => simp [Json.isStr, Json.isArr] at hkind
  | obj members =>
    have hnone : usernames (.obj members) = [] := rfl
    rw [hnone]
    exact iff_of_false (fun h => by cases h) fun h => h (.record members)
  | arr items =>
    constructor
    · rintro (_ | _ | _ | _ | hnames) (_ | hnobody)
      exact names_filterMap_iff.1 hnames hnobody
    · intro h
      exact .items (names_filterMap_iff.2 fun hnobody => h (.item hnobody))
  | str s =>
    cases hs : isList s with
    | false =>
      refine iff_of_true ?_ ?_
      · rw [usernames, hs]
        by_cases hempty : s = ""
        · subst hempty
          exact .nobody
        · have : s.isEmpty = false := by simpa using hempty
          simpa [this] using Named.text hempty hs
      · rintro (_ | _ | ⟨hlist, -, -⟩ | ⟨hlist, -⟩) <;> cases hs.symm.trans hlist
    | true => exact named_of_isList hs

end Users

/-! ## Options -/

namespace ListOption

variable {options : List ListOption}

/-- Whether a value is the id or else the label of an option, which is given by its id. -/
def NamesOne (options : List ListOption) (v : Json) (o : String) : Prop :=
  ∃ s, v = .str s ∧ idOf options s = some o

/-- The options that a value names, in order. -/
inductive Named (options : List ListOption) : Json → List String → Prop where
  | text {v : Json} {o : String} (h : NamesOne options v o) : Named options v [o]
  | items {items : List Json} {os : List String} (h : List.Forall₂ (NamesOne options) items os) :
    Named options (.arr items) os

theorem exists_of_checkOption {v : Json} (h : FieldType.checkOption options v = none) :
    ∃ o, NamesOne options v o := by
  cases v with
  | str s =>
    cases ho : idOf options s with
    | none => simp [FieldType.checkOption, ho] at h
    | some o => exact ⟨o, s, rfl, ho⟩
  | null | bool | num | arr | obj => cases h

theorem optionId_of_names {v : Json} {o : String} (h : NamesOne options v o) :
    Write.optionId options v = o := by
  obtain ⟨s, rfl, ho⟩ := h
  rw [Write.optionId, ho, Option.getD_some]

theorem names_map_optionId {items : List Json}
    (h : items.findSome? (FieldType.checkOption options) = none) :
    List.Forall₂ (NamesOne options) items (items.map (Write.optionId options)) := by
  rw [List.findSome?_eq_none_iff] at h
  refine List.forall₂_map_right_iff.2 (List.forall₂_same.2 fun v hv => ?_)
  obtain ⟨o, ho⟩ := exists_of_checkOption (h v hv)
  rw [optionId_of_names ho]
  exact ho

end ListOption

/-! ## What is stored -/

namespace Write

variable {f : Field} {v : Json}

/-- Whether a column holds the text of an array of given texts, and so is read as that. -/
def HoldsArray (cell : Json) (texts : List String) : Prop :=
  cell = arrayText texts ∧ Json.parse cell.plain = some (Json.strings texts)

theorem holdsArray_arrayText (texts : List String) : HoldsArray (arrayText texts) texts :=
  ⟨rfl, Json.parse_text_strings texts⟩

theorem strings_injective {xs ys : List String} (h : Json.strings xs = Json.strings ys) :
    xs = ys := by
  rw [Json.strings, Json.strings, Json.arr.injEq] at h
  exact List.map_injective_iff.2 (fun _ _ => Json.str.inj) h

theorem HoldsArray.unique {cell : Json} {xs ys : List String} (hx : HoldsArray cell xs)
    (hy : HoldsArray cell ys) : xs = ys :=
  strings_injective (Option.some.inj (hx.2.symm.trans hy.2))

/-- No text is the text of the array that it alone is in. -/
theorem not_holdsArray_self (o : String) : ¬HoldsArray (.str o) [o] := by
  rintro ⟨htext, -⟩
  have hlength := congrArg (·.toList.length) (Json.str.inj htext)
  have ho := Json.length_le_flatMap_escape o.toList
  simp only [Json.toList_text_cons, Json.quoted, List.length_cons, List.length_append] at hlength
  omega

theorem columnValue_users (h : f.type = .user true) (v : Json) :
    columnValue f v = arrayText (Users.usernames v) := by
  obtain ⟨id, column, label, type, multilingual, required, default⟩ := f
  subst h
  rfl

theorem columnValue_option {options : List ListOption} (h : f.type = .list options true)
    (s : String) : columnValue f (.str s) = .str (optionId options (.str s)) := by
  obtain ⟨id, column, label, type, multilingual, required, default⟩ := f
  subst h
  rfl

theorem columnValue_options {options : List ListOption} (h : f.type = .list options true)
    (items : List Json) :
    columnValue f (.arr items) = arrayText (items.map (optionId options)) := by
  obtain ⟨id, column, label, type, multilingual, required, default⟩ := f
  subst h
  rfl

theorem accepted_users (h : FieldType.check (.user true) v = none) (hnull : v.isNull = false) :
    v.isStr = true ∨ v.isArr = true ∨ ∃ members, v = .obj members := by
  cases v with
  | null => cases hnull
  | bool | num => cases h
  | str => exact .inl rfl
  | arr => exact .inr (.inl rfl)
  | obj members => exact .inr (.inr ⟨members, rfl⟩)

/-- What is stored for a value that a field with several values accepts. For users it is the text of
an array, of just those that the value names unless it drops one. For options it is the text of the
array of those named if the value is a list; one named by itself is stored by itself. -/
theorem several_stored (haccepted : f.type.check v = none) (hnull : v.isNull = false) :
    (f.type = .user true →
      (∃ us, HoldsArray (columnValue f v) us) ∧
        ((∃ us, Users.Named v us ∧ HoldsArray (columnValue f v) us) ↔ ¬Users.Drops v)) ∧
      ∀ options, f.type = .list options true →
        ∃ os, ListOption.Named options v os ∧ (HoldsArray (columnValue f v) os ↔ v.isArr = true) ∧
          (v.isArr = false → ∃ o, os = [o] ∧ columnValue f v = .str o) := by
  constructor
  · intro htype
    rw [htype] at haccepted
    have hholds := holdsArray_arrayText (Users.usernames v)
    rw [columnValue_users htype]
    refine ⟨⟨_, hholds⟩, ?_⟩
    rw [← Users.named_usernames_iff (accepted_users haccepted hnull)]
    constructor
    · rintro ⟨us, hnamed, hus⟩
      exact hholds.unique hus ▸ hnamed
    · exact fun hnamed => ⟨_, hnamed, hholds⟩
  · intro options htype
    rw [htype] at haccepted
    cases v with
    | null => cases hnull
    | bool | num | obj => cases haccepted
    | arr items =>
      have hitems : items.findSome? (FieldType.checkOption options) = none := by
        simpa [FieldType.check, Json.isNull] using haccepted
      refine ⟨_, .items (ListOption.names_map_optionId hitems), ?_, nofun⟩
      rw [columnValue_options htype]
      exact iff_of_true (holdsArray_arrayText _) rfl
    | str s =>
      obtain ⟨o, ho⟩ : ∃ o, ListOption.NamesOne options (.str s) o := by
        refine ListOption.exists_of_checkOption ?_
        simpa [FieldType.check, Json.isNull] using haccepted
      have hstored : columnValue f (.str s) = .str o := by
        rw [columnValue_option htype, ListOption.optionId_of_names ho]
      refine ⟨[o], .text ho, ?_, fun _ => ⟨o, rfl, hstored⟩⟩
      rw [hstored]
      exact iff_of_false (not_holdsArray_self o) nofun

/-- Ann and a record of Bob are stored, and so are a color and another one by its label. -/
theorem several_stored_both :
    let watchers := Field.new "w" "watchers" (.user true)
    let colors : List ListOption := [⟨"r", "Red"⟩, ⟨"g", "Green"⟩]
    let tags := Field.new "t" "tags" (.list colors true)
    let users : Json := .arr [.str "ann", .obj [("id", .str "bob"), ("text", .str "Bob")]]
    let named : Json := .arr [.str "g", .str "red"]
    watchers.type.check users = none ∧ tags.type.check named = none ∧
      (∃ us, Users.Named users us ∧ HoldsArray (columnValue watchers users) us) ∧
      ∃ os, ListOption.Named colors named os ∧ HoldsArray (columnValue tags named) os := by
  intro watchers colors tags users named
  have hkept : ¬Users.Drops users := by
    dsimp only [users]
    rintro (_ | ⟨item, hmem, hnobody⟩)
    rcases List.mem_pair.1 hmem with rfl | rfl
    · exact hnobody "ann" (.text "ann")
    · exact hnobody "bob" (.record rfl)
  have husers : watchers.type.check users = none := by decide
  have hnamed : tags.type.check named = none := by decide +kernel
  obtain ⟨-, hiff⟩ := (several_stored husers rfl).1 rfl
  obtain ⟨os, hos, harray, -⟩ := (several_stored hnamed rfl).2 colors rfl
  exact ⟨husers, hnamed, hiff.2 hkept, os, hos, harray.2 rfl⟩

/-- A color by itself is not stored as an array, and of a record of Bob by itself nobody is stored.
-/
theorem several_lost :
    let watchers := Field.new "w" "watchers" (.user true)
    let tags := Field.new "t" "tags" (.list [⟨"r", "Red"⟩] true)
    let bob : Json := .obj [("id", .str "bob")]
    tags.type.check (.str "Red") = none ∧ columnValue tags (.str "Red") = .str "r" ∧
      columnValue tags (.str "Red") ≠ arrayText ["r"] ∧
      watchers.type.check bob = none ∧ Users.Named bob ["bob"] ∧
      columnValue watchers bob = arrayText [] ∧ columnValue watchers bob ≠ arrayText ["bob"] := by
  intro watchers tags bob
  have htext {s t : String} (h : s ≠ t) : Json.str s ≠ .str t := fun heq => h (Json.str.inj heq)
  have hnone : columnValue watchers bob = arrayText [] := rfl
  refine ⟨by decide +kernel, rfl, htext (by decide), by decide, .record (.record rfl), hnone, ?_⟩
  exact hnone ▸ htext (by decide)

end Write

end CatalogQuery
