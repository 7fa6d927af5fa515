import CatalogQuery.Proofs.Populate.Join
import CatalogQuery.Proofs.Write.Several

/-!
# Users are shown by name and stored again

The users in linked records are shown with their names, which are read at once for all of them.
Main statement: whatever names come back, what a user field shows for what it holds is stored as just
that, and nothing else in a record changes.
-/

namespace CatalogQuery

namespace Users

variable {names : List (String × String)} {f : Field} {us : List String} {cell : Json}

/-! ## Values that are shown -/

/-- The name that a user is shown by: their own, or their username if they have none. -/
def nameOf (names : List (String × String)) (username : String) : String :=
  ((names.find? (·.1 == username)).map (·.2)).getD username

/-- A value as it is shown: with names for its users, or as it is. -/
def display (names : List (String × String)) (v : Json) : Json := (merged names v).getD v

theorem shown_eq (names : List (String × String)) (u : String) :
    shown names u = .obj [("id", .str u), ("text", .str (nameOf names u))] := by
  have horder : ¬"text" < "id" := by decide
  simp [shown, nameOf, Json.object, Json.sorted, Json.insert, horder]

theorem namesOne_shown (names : List (String × String)) (u : String) :
    NamesOne (shown names u) u := by
  rw [shown_eq]
  exact .record rfl

theorem filterMap_usernameOf {items : List Json} (h : List.Forall₂ NamesOne items us) :
    items.filterMap usernameOf = us := by
  induction h with
  | nil => rfl
  | cons hone _ ih => rw [List.filterMap_cons, usernameOf_eq_some.2 hone, ih]

theorem usernames_shown (names : List (String × String)) (us : List String) :
    usernames (.arr (us.map (shown names))) = us := by
  apply filterMap_usernameOf
  exact List.forall₂_map_left_iff.2 (List.forall₂_same.2 fun u _ => namesOne_shown names u)

theorem isList_text (us : List String) : isList (Json.strings us).text = true := by
  cases us with
  | nil => rfl
  | cons u us =>
    rw [isList, Json.toList_text_cons]
    rfl

/-- The text of an array of usernames holds those users. -/
theorem usernames_arrayText (us : List String) : usernames (Write.arrayText us) = us := by
  rw [Write.arrayText, usernames, if_pos (isList_text us), Json.parse_text_strings]
  apply filterMap_usernameOf
  exact List.forall₂_map_left_iff.2 (List.forall₂_same.2 fun u _ => .text u)

theorem usernames_str {u : String} (hu : u ≠ "") (hlist : isList u = false) :
    usernames (.str u) = [u] := by
  have hempty : u.isEmpty = false := by simpa using hu
  rw [usernames, hlist, hempty]
  rfl

theorem display_str (names : List (String × String)) {u : String} (hu : u ≠ "")
    (hlist : isList u = false) : display names (.str u) = shown names u := by
  have hempty : u.isEmpty = false := by simpa using hu
  rw [display, merged, hlist, hempty]
  rfl

/-- A text that begins like an array is shown as the array of the users in it. -/
theorem display_of_isList (names : List (String × String)) {s : String} (h : isList s = true) :
    display names (.str s) = .arr ((usernames (.str s)).map (shown names)) := by
  rw [display, merged, if_pos h]
  rfl

theorem display_arrayText (names : List (String × String)) (us : List String) :
    display names (Write.arrayText us) = .arr (us.map (shown names)) := by
  have husers := usernames_arrayText us
  rw [Write.arrayText] at husers ⊢
  rw [display_of_isList names (isList_text us), husers]

theorem display_of_isBlank {v : Json} (h : v.isBlank = true) : display names v = v := by
  cases v with
  | null => rfl
  | str s =>
    have hempty : s = "" := by simpa [Json.isBlank] using h
    rw [hempty]
    rfl
  | bool | num | arr | obj => cases h

/-- What is shown already stays. -/
theorem display_display (v : Json) : display names (display names v) = display names v := by
  have hlist (us : List String) : display names (.arr (us.map (shown names))) =
      .arr (us.map (shown names)) := by
    show Json.arr ((usernames (.arr (us.map (shown names)))).map (shown names)) = _
    rw [usernames_shown]
  -- An array, or the text of one, is shown as an array, and any other text as an object.
  cases v with
  | arr items => exact hlist _
  | str s =>
    by_cases harray : isList s = true
    · rw [display_of_isList names harray]
      exact hlist _
    · by_cases hempty : s = ""
      · rw [hempty]
        rfl
      · rw [display_str names hempty (by simpa using harray), shown_eq]
        rfl
  | null | bool | num | obj => rfl

/-! ## Columns that hold users -/

/-- What is stored for users: a username by itself, which is not empty and does not begin like an
array, or the array of all usernames in a value. -/
inductive Holds (f : Field) : List String → Json → Prop where
  | one {v : Json} {u : String} (htype : f.type = .user false) (hv : NamesOne v u) (hu : u ≠ "")
      (hlist : isList u = false) : Holds f [u] (Write.columnValue f v)
  | several (htype : f.type = .user true) (v : Json) :
      Holds f (usernames v) (Write.columnValue f v)

/-- Whether a value is the pair of a username and the name that the user is shown by. -/
def IsPair (names : List (String × String)) (u : String) (v : Json) : Prop :=
  v = .obj [("id", .str u), ("text", .str (nameOf names u))]

/-- How users are shown: as a pair, or as one pair for each where a field holds several. -/
inductive Pairs (names : List (String × String)) (f : Field) : List String → Json → Prop where
  | one {u : String} {v : Json} (htype : f.type = .user false) (h : IsPair names u v) :
      Pairs names f [u] v
  | several {us : List String} {vs : List Json} (htype : f.type = .user true)
      (h : List.Forall₂ (IsPair names) us vs) : Pairs names f us (.arr vs)

theorem columnValue_of_namesOne (htype : f.type = .user false) {v : Json} {u : String}
    (hv : NamesOne v u) : Write.columnValue f v = .str u := by
  obtain ⟨id, column, label, type, multilingual, required, default⟩ := f
  subst htype
  cases hv with
  | text => rfl
  | record h =>
    show (Json.find "id" _).getD .null = _
    rw [h]
    rfl

theorem Holds.usernames_eq (h : Holds f us cell) : usernames cell = us := by
  cases h with
  | one htype hv hu hlist => rw [columnValue_of_namesOne htype hv, usernames_str hu hlist]
  | several htype v => rw [Write.columnValue_users htype, usernames_arrayText]

/-- What is stored is stored again as it is. -/
theorem Holds.columnValue_eq (h : Holds f us cell) : Write.columnValue f cell = cell := by
  have husers := h.usernames_eq
  cases h with
  | one htype hv _ _ =>
    rw [columnValue_of_namesOne htype hv, columnValue_of_namesOne htype (.text _)]
  | several htype v =>
    rw [Write.columnValue_users htype, husers, Write.columnValue_users htype]

theorem Holds.pairs_display (h : Holds f us cell) (names : List (String × String)) :
    Pairs names f us (display names cell) := by
  cases h with
  | one htype hv hu hlist =>
    rw [columnValue_of_namesOne htype hv, display_str names hu hlist]
    exact .one htype (shown_eq names _)
  | several htype v =>
    rw [Write.columnValue_users htype, display_arrayText]
    apply Pairs.several htype
    exact List.forall₂_map_right_iff.2 (List.forall₂_same.2 fun u _ => shown_eq names u)

/-- Users that are shown are stored as they were. -/
theorem Holds.columnValue_display (h : Holds f us cell) (names : List (String × String)) :
    Write.columnValue f (display names cell) = cell := by
  cases h with
  | one htype hv hu hlist =>
    rw [columnValue_of_namesOne htype hv, display_str names hu hlist,
      columnValue_of_namesOne htype (namesOne_shown names _)]
  | several htype v =>
    have hcell : Write.columnValue f v = Write.arrayText (usernames v) :=
      Write.columnValue_users htype v
    rw [hcell, display_arrayText, Write.columnValue_users htype, usernames_shown]

end Users

namespace Linked

/-! ## Records -/

/-- Showing the users in one column changes nothing in the others. -/
theorem find_withNames_singleton (names : List (String × String)) (column c : String) (row : Row) :
    Json.find c (withNames names [column] row) =
      if c = column then (Json.find c row).map (Users.display names) else Json.find c row := by
  rw [withNames, List.foldl_cons, List.foldl_nil]
  by_cases hc : c = column
  · subst hc
    rw [if_pos rfl]
    cases hfind : Json.find c row with
    | none => exact hfind
    | some v =>
      rw [Option.bind_some, Option.map_some, Users.display]
      cases Users.merged names v with
      | none => exact hfind
      | some w => exact Json.find_insert_self c w row
  · rw [if_neg hc]
    cases (Json.find column row).bind (Users.merged names) with
    | none => rfl
    | some w => exact Json.find_insert_of_ne hc w row

theorem find_withNames (names : List (String × String)) (columns : List String) (c : String)
    (row : Row) : Json.find c (withNames names columns row) =
      if c ∈ columns then (Json.find c row).map (Users.display names) else Json.find c row := by
  induction columns generalizing row with
  | nil => rfl
  | cons column rest ih =>
    have hcons : withNames names (column :: rest) row =
        withNames names rest (withNames names [column] row) := rfl
    rw [hcons, ih, find_withNames_singleton]
    by_cases hc : c = column
    · -- What is shown once may be met again where two fields share a column.
      have hmem : c ∈ column :: rest := hc ▸ List.mem_cons_self
      rw [if_pos hc, if_pos hmem, Option.map_map]
      split
      · exact congrArg (Option.map · _) (funext fun v => Users.display_display v)
      · rfl
    · have hmem : c ∈ column :: rest ↔ c ∈ rest := by simp [hc]
      simp only [if_neg hc, hmem]

theorem usernamesIn_eq_nil_iff {columns : List String} {rows : List Row} :
    usernamesIn columns rows = [] ↔ ∀ row ∈ rows, ∀ c ∈ columns, ∀ v, Json.find c row = some v →
      Users.usernames v = [] := by
  -- A username that is in the list already leaves it as it is, and any other makes it longer.
  have hfold (all names : List String) :
      all.foldl (fun names n => if names.contains n then names else names ++ [n]) names = [] ↔
        names = [] ∧ all = [] := by
    induction all generalizing names with
    | nil => simp
    | cons n all ih =>
      rw [List.foldl_cons, ih]
      by_cases hmem : names.contains n = true
      · have hne : names ≠ [] := by
          rintro rfl
          cases hmem
        rw [if_pos hmem]
        simp [hne]
      · rw [if_neg hmem]
        simp
  rw [usernamesIn, hfold, and_iff_right rfl, List.flatMap_eq_nil_iff]
  simp only [List.flatMap_eq_nil_iff]
  constructor
  · intro h row hrow c hc v hv
    have hnobody := h row hrow c hc
    rwa [hv] at hnobody
  · intro h row hrow c hc
    cases hv : Json.find c row with
    | none => rfl
    | some v => exact h row hrow c hc v hv

/-- What showing its users by name makes of a record: other columns and those without a value stay,
and what a user field holds is shown in pairs that are stored as just that. -/
structure ShowsUsers (names : List (String × String)) (target : Entity) (row row' : Row) : Prop where
  others : ∀ c, c ∉ userColumns target → Json.find c row' = Json.find c row
  missing : ∀ c, Json.find c row = none → Json.find c row' = none
  blank : ∀ c v, Json.find c row = some v → v.isBlank = true → Json.find c row' = some v
  users : ∀ f ∈ target.userFields, ∀ us cell, Users.Holds f us cell →
    Json.find f.column row = some cell → ∃ v, Json.find f.column row' = some v ∧
      Users.Pairs names f us v ∧ Write.columnValue f v = cell

theorem showsUsers_withNames (names : List (String × String)) (target : Entity) (row : Row) :
    ShowsUsers names target row (withNames names (userColumns target) row) where
  others c hc := by
    rw [find_withNames, if_neg hc]
  missing c hnone := by
    rw [find_withNames, hnone]
    split <;> rfl
  blank c v hv hblank := by
    rw [find_withNames, hv, Option.map_some, Users.display_of_isBlank hblank]
    split <;> rfl
  users f hf us cell hholds hcell := by
    have hcolumn : f.column ∈ userColumns target := List.mem_map_of_mem hf
    refine ⟨Users.display names cell, ?_, hholds.pairs_display names,
      hholds.columnValue_display names⟩
    rw [find_withNames, if_pos hcolumn, hcell]
    rfl

/-- The users in linked records are shown with the names that one read gives for all of them, and are
stored as they were, whatever names those are. When nobody is named, nothing is read and all stays. -/
theorem users_stored_back {s : Session} {target : Entity} {found : List (String × Row)}
    {t : List Exchange} {r : Result (List (String × Row))}
    (h : (mergeNames s target found).Runs t r) :
    let usernames := usernamesIn (userColumns target) (found.map (·.2))
    (usernames = [] ∧ t = [] ∧ r = .ok found ∧
      ∀ x ∈ found, ∀ f ∈ target.userFields, ∀ us cell, Users.Holds f us cell →
        Json.find f.column x.2 = some cell → us = [] ∧ Write.columnValue f cell = cell) ∨
    (usernames ≠ [] ∧ ∃ answer,
      Program.IsRead s.channel (s.directory.namesSelect usernames) s.directory.readRetries t answer ∧
      match answer with
      | .error failure => r = .error (.sql (s.directory.namesSelect usernames).sql.toText failure)
      | .ok rows => ∃ found', r = .ok found' ∧ List.Forall₂ (fun x x' =>
          x'.1 = x.1 ∧ ShowsUsers (shownNames rows) target x.2 x'.2) found found') := by
  intro usernames
  by_cases hnobody : usernames = []
  · -- What is stored for users then names nobody, so that nothing is left to be shown.
    left
    rw [mergeNames_of_nobody hnobody] at h
    refine ⟨hnobody, h.1, h.2, ?_⟩
    intro x hx f hf us cell hholds hcell
    have hnone := usernamesIn_eq_nil_iff.1 hnobody x.2 (List.mem_map_of_mem hx) f.column
      (List.mem_map_of_mem hf) cell hcell
    exact ⟨hholds.usernames_eq.symm.trans hnone, hholds.columnValue_eq⟩
  · right
    rw [mergeNames_of_users hnobody] at h
    obtain ⟨read, hfetch, rfl⟩ := Program.Runs.map_iff.1 h
    obtain ⟨answer, hread, rfl⟩ := Program.Runs.fetch hfetch
    refine ⟨hnobody, answer, hread, ?_⟩
    cases answer with
    | error failure => rfl
    | ok rows =>
      refine ⟨_, rfl, ?_⟩
      rw [List.forall₂_map_right_iff, List.forall₂_same]
      exact fun x _ => ⟨rfl, showsUsers_withNames (shownNames rows) target x.2⟩

/-- A note with an owner and two who watch it, of whom one has no name of their own. -/
theorem users_stored_back_watched :
    let s : Session := ⟨{}, {}, .tenant⟩
    let owner := Field.new "o" "owner" (.user false)
    let watchers := Field.new "w" "watchers" (.user true)
    let note := Entity.new "note" "Note" "NOTE" [owner, watchers]
    let record : Row := [("owner", .str "ann"), ("title", .str "ann"),
      ("watchers", .str "[\"bob\",\"ann\"]")]
    let names : List Row := [[("displayName", .str "Ann"), ("username", .str "ann")]]
    let ann : Json := .obj [("id", .str "ann"), ("text", .str "Ann")]
    let bob : Json := .obj [("id", .str "bob"), ("text", .str "bob")]
    let record' : Row := [("owner", ann), ("title", .str "ann"), ("watchers", .arr [bob, ann])]
    let t : List Exchange := [⟨.fetch .tenant (s.directory.namesSelect ["ann", "bob"]), .ok names⟩]
    (mergeNames s note [("i1", record)]).Runs t (.ok [("i1", record')]) ∧
      ShowsUsers (shownNames names) note record record' := by
  intro s owner watchers note record names ann bob record' t
  have hnames : shownNames names = [("ann", "Ann")] := rfl
  have hrecord : withNames [("ann", "Ann")] ["owner", "watchers"] record = record' := rfl
  have hrun : (mergeNames s note [("i1", record)]).Runs t (.ok [("i1", record')]) := by
    refine ⟨.ok names, [], rfl, rfl, ?_⟩
    rw [← hrecord, ← hnames]
    rfl
  refine ⟨hrun, ?_⟩
  rcases users_stored_back hrun with ⟨-, hunsent, -⟩ | ⟨-, answer, hread, hanswer⟩
  · exact absurd hunsent (List.cons_ne_nil _ _)
  have hmem := List.mem_singleton.1 hread.mem
  cases answer with
  | error failure => cases hmem
  | ok rows =>
    cases hmem
    obtain ⟨found', hfound, hshows⟩ := hanswer
    cases hfound
    obtain ⟨hshow, -⟩ := List.forall₂_cons.1 hshows
    exact hshow.2

end Linked

end CatalogQuery
