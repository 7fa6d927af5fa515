import CatalogQuery.Proofs.Decode.Structures
import CatalogQuery.Proofs.Save.Edits

/-!
# What calls write for a record

Whatever call changes a record writes at most one statement about its row first, then statements
for its links, and the end of the row last. Main statement: when a statement for a link is carried
out the row has what it was found or inserted with, unless the same call has overwritten it.
-/

namespace CatalogQuery

open Sql Write

/-! ## What a row has after assignments -/

/-- What assignments give a column; the last one counts. -/
def Sql.assignedIn (row : List Assignment) (column : String) : Option Operand :=
  (row.reverse.find? (·.column == column)).map (·.value)

section Assigned

variable {row row' : List Assignment} {column : String}

theorem assignedIn_append :
    assignedIn (row ++ row') column = (assignedIn row' column).or (assignedIn row column) := by
  simp only [assignedIn, List.reverse_append, List.find?_append, Option.map_or]

theorem assignedIn_singleton (a : Assignment) :
    assignedIn [a] column = if a.column = column then some a.value else none := by
  by_cases h : a.column = column <;> simp [assignedIn, h]

theorem assignedIn_eq_none :
    assignedIn row column = none ↔ ∀ a ∈ row, a.column ≠ column := by
  simp [assignedIn]

theorem assign_of_assignedIn {E : Engine} {r : Stored} {o : Operand}
    (h : assignedIn row column = some o) : E.assign row r column = E.eval o := by
  induction row generalizing r with
  | nil => cases h
  | cons a rest ih =>
    rw [← List.singleton_append, assignedIn_append, assignedIn_singleton] at h
    cases hrest : assignedIn rest column with
    | some o' =>
      rw [hrest, Option.some_or] at h
      exact ih (hrest.trans h)
    | none =>
      -- No later assignment takes the value away again.
      rw [hrest, Option.none_or] at h
      split at h
      · rename_i hcolumn
        cases h
        subst hcolumn
        exact (Engine.assign_of_not_mem (assignedIn_eq_none.1 hrest) _).trans
          (Function.update_self ..)
      · cases h

/-- Assigning columns gives what the row of these columns has. -/
theorem assignedIn_assignments (columns : List (String × Json)) (column : String) :
    assignedIn (Session.assignments columns) column =
      (Json.find column (Session.rowOf columns)).map .value := by
  rw [Session.rowOf, Json.find_sorted, assignedIn, Session.assignments, ← List.map_reverse]
  induction columns.reverse with
  | nil => rfl
  | cons m rest ih =>
    obtain ⟨c, v⟩ := m
    rw [List.map_cons, List.find?_cons, Json.find]
    by_cases hc : c = column
    · simp [setTo, hc]
    · rw [if_neg hc, ← ih, show ((setTo c v).column == column) = false by simpa [setTo] using hc]

end Assigned

/-! ## What a call writes for a record -/

/-- A statement that is written for a link, which is held in a place. -/
structure LinkStatement where
  link : Link
  place : Place
  write : Sql.Write

/-- What a call writes for a record: a statement about its row, statements for its links, and what
comes last. -/
structure Writing where
  base : Base
  row : List Sql.Write
  links : List LinkStatement
  last : List Sql.Write

namespace Writing

def statements (c : Writing) : List Sql.Write := c.row ++ c.links.map (·.write) ++ c.last

/-- Whether the record is new. -/
def IsNew (c : Writing) : Prop := ∃ table row, .insert table row ∈ c.row

/-- Whether the statement about the row puts something else into a column. -/
def Overwrites (c : Writing) (column : String) (o : Operand) : Prop :=
  ∃ table row tests, .update table row tests ∈ c.row ∧ assignedIn row column = some o

end Writing

namespace Write

/-- The statements of a change of links. -/
def LinkChange.written (b : Base) (c : LinkChange) : List LinkStatement :=
  (c.statements b).map (LinkStatement.mk c.link (placeOf b.entity ⟨c.link, c.keyColumn, []⟩))

/-- The statement that takes a row out of a junction. -/
def leaving? (b : Base) (l : Link) : Option LinkStatement :=
  match l.keys with
  | .junction table sourceColumn targetColumn source _ =>
    some ⟨l, ⟨table, sourceColumn, targetColumn⟩,
      .delete table [columnIs sourceColumn (b.valueOf source)]⟩
  | _ => none

theorem map_leaving (b : Base) (links : LinkMap) :
    (links.links.filterMap (leaving? b)).map (·.write) = leaveJunctions b links := by
  rw [leaveJunctions, List.map_filterMap]
  refine List.filterMap_congr fun l _ => ?_
  rw [leaving?]
  cases l.keys <;> rfl

end Write

/-- Whether a call writes for a record of an object as it says, by what its run has found out. -/
inductive Session.Writes (s : Session) (caller : Caller) (catalog : Catalog) (e : Entity)
    (t : List Exchange) : Call → Writing → Prop
  | edit {call : Call} {u : Edit} (planned : s.Planned caller catalog e t call u) :
    Writes s caller catalog e t call
      ⟨u.base, u.row, u.changes.flatMap (LinkChange.written u.base), []⟩
  | delete {key : Json} {base : Base} (found : (s.lockedRow e key caller e.id).Within t base) :
    Writes s caller catalog e t (.delete e.id key)
      ⟨base, [], (LinkMap.resolve s.settings catalog e).1.links.filterMap (leaving? base),
        [.delete e.table [base.isRow]]⟩

namespace Session

variable {s : Session} {caller : Caller} {catalog : Catalog} {e : Entity} {t : List Exchange}
  {call : Call} {c : Writing}

theorem exists_writing_of_delete (hobject : catalog.entity e.id = .ok e)
    (hmetadata : Exchange.AnsweredWith catalog (LinkMap.ofCatalog s.settings catalog) t)
    {key : Json} {r : Result Unit} (h : (s.delete e.id key caller).Runs t r) :
    Exchange.effects e t = [] ∨ ∃ c, s.Writes caller catalog e t (.delete e.id key) c ∧
      Exchange.effects e t <+: c.statements ∧
      (Exchange.NoneRefused t → Exchange.effects e t = c.statements) := by
  have hreads := s.onlyReads_deletePlan e.id key caller
  rw [delete_eq] at h
  rcases Program.Runs.bind_iff.1 h with ⟨error, hplan, -⟩ | ⟨before, rest, plan, rfl, hplan, hrest⟩
  · exact .inl (Exchange.effects_of_writes (hreads.writes_eq_nil hplan))
  have heffects : Exchange.effects e (before ++ rest) = Exchange.effects e rest := by
    rw [Exchange.effects_append, Exchange.effects_of_writes (hreads.writes_eq_nil hplan),
      List.nil_append]
  obtain ⟨v, hv, hknown⟩ := runs_of_known hobject hmetadata (List.prefix_append _ _) hplan
  obtain ⟨found, t₂, base, rfl, hfound, -, hlisted⟩ := Program.Runs.bind_ok.1 hknown
  cases hlisted
  have hnumbered : ∀ w ∈ leaveJunctions base (LinkMap.resolve s.settings catalog e).1 ++
      [.delete e.table [base.isRow]], ∀ n, w.numbered e n = w := by
    intro w hw n
    rcases List.mem_append.1 hw with hw | hw
    · obtain ⟨l, -, hl⟩ := List.mem_filterMap.1 hw
      split at hl <;> cases hl
      rfl
    · obtain rfl := List.mem_singleton.1 hw
      rfl
  obtain ⟨hstart, hall⟩ := effects_of_executeAll_bind hnumbered (.pure ()) hrest
  refine .inr ⟨_, .delete ⟨found, .trans ⟨[], t₂, by simp⟩ hv, hfound⟩, ?_, fun hnone => ?_⟩
  · rw [heffects, Writing.statements, map_leaving]
    exact hstart
  · rw [heffects, Writing.statements, map_leaving]
    exact hall fun channel w failure hmem => hnone channel w failure (List.mem_append_right _ hmem)

/-- What a call does to the database is nothing or the beginning of what it writes for a record. -/
theorem exists_writing (hobject : catalog.entity e.id = .ok e)
    (hcall : call.edited? = some e.id ∨ ∃ key, call = .delete e.id key)
    (hmetadata : Exchange.AnsweredWith catalog (LinkMap.ofCatalog s.settings catalog) t)
    {r : Result Unit} (h : (call.program s caller).Runs t r) :
    Exchange.effects e t = [] ∨ ∃ c, s.Writes caller catalog e t call c ∧
      Exchange.effects e t <+: c.statements ∧
      (Exchange.NoneRefused t → Exchange.effects e t = c.statements) := by
  rcases hcall with hcall | ⟨key, rfl⟩
  · refine (exists_edit hobject hcall hmetadata h).imp_right fun ⟨u, hu⟩ =>
      ⟨_, .edit hu.planned, ?_⟩
    have hstatements : Writing.statements ⟨u.base, u.row,
        u.changes.flatMap (LinkChange.written u.base), []⟩ = u.statements := by
      simp [Writing.statements, Edit.statements, List.map_flatMap, LinkChange.written,
        Function.comp_def]
    rw [hstatements]
    exact ⟨hu.starts, hu.all⟩
  · exact exists_writing_of_delete hobject hmetadata h

theorem Writes.entity_eq (h : s.Writes caller catalog e t call c) : c.base.entity = e := by
  cases h with
  | edit planned => exact planned.entity_eq
  | delete found =>
    obtain ⟨v, -, hv⟩ := found
    exact entity_of_lockedRow hv

/-- An insert assigns what the new row is known to have, but for times. -/
theorem assignedIn_new (settings : Settings) {columns : List (String × Json)} (column : String)
    (hkey : e.key = .uuid → ∃ k, Json.find e.keyColumn (rowOf columns) = some k) (number : Nat) :
    ∃ row, (Sql.Write.insert e.table (assignments columns ++ newTimes settings)).numbered e
      number = .insert e.table row ∧ (⟨column, .now⟩ ∉ row →
        assignedIn row column = (Json.find column (newBase e columns number).row).map .value) := by
  -- A time is assigned as the time of the statement, which the row does not tell.
  have htimes {row : List Assignment} (hsub : newTimes settings ⊆ row)
      (hrow : ⟨column, .now⟩ ∉ row) : assignedIn (newTimes settings) column = none := by
    refine assignedIn_eq_none.2 fun a ha hcolumn => hrow (hsub ?_)
    have hnow : a.value = .now := by
      rw [newTimes, List.mem_append] at ha
      rcases ha with ha | ha <;> split at ha <;> simp_all
    obtain ⟨c, o⟩ := a
    cases hcolumn
    cases hnow
    exact ha
  refine ⟨_, rfl, fun hrow => ?_⟩
  rw [newBase]
  cases hprimary : e.key with
  | uuid =>
    simp only [hprimary] at hrow ⊢
    rw [assignedIn_append, htimes (List.subset_append_right _ _) hrow, Option.none_or,
      assignedIn_assignments]
    by_cases hcolumn : column = e.keyColumn
    · obtain ⟨k, hk⟩ := hkey hprimary
      rw [hcolumn, Json.find_insert_self, hk]
      rfl
    · rw [Json.find_insert_of_ne hcolumn]
  | id =>
    simp only [hprimary] at hrow ⊢
    have hsub : newTimes settings ⊆ assignments columns ++ newTimes settings ++
        [setTo e.keyColumn (Json.ofNat number)] :=
      fun a ha => List.mem_append_left _ (List.mem_append_right _ ha)
    rw [assignedIn_append, assignedIn_singleton, assignedIn_append, htimes hsub hrow,
      Option.none_or, assignedIn_assignments]
    by_cases hcolumn : e.keyColumn = column
    · subst hcolumn
      rw [Json.find_insert_self]
      simp [setTo]
    · rw [Json.find_insert_of_ne (Ne.symm hcolumn)]
      simp [setTo, hcolumn]

/-- The statement about a row, if there is one, inserts what the row is known to have or updates the
row that was found. -/
theorem Writes.row_eq (h : s.Writes caller catalog e t call c) (column : String) :
    c.row = [] ∨ (∃ row, c.row = [.update e.table row [c.base.isRow]]) ∨
      ∃ row, c.row = [.insert e.table row] ∧ (⟨column, .now⟩ ∉ row →
        assignedIn row column = (Json.find column c.base.row).map .value) := by
  cases h with
  | delete found => exact .inl rfl
  | edit planned =>
    cases planned with
    | relate | unrelate => exact .inl rfl
    | update => exact (Update.rowWrites_eq ..).imp_right .inl
    | @create values input p own number members prepared accepted key =>
      obtain ⟨v, -, hown⟩ := key
      have hkey (hprimary : e.key = .uuid) :
          ∃ k, Json.find e.keyColumn (rowOf (own ++ p.columns)) = some k := by
        rw [ownColumns, hprimary] at hown
        obtain ⟨-, -, k, -, -, -, hown⟩ := Program.Runs.bind_ok.1 hown
        cases hown
        rw [rowOf, Json.find_sorted, List.reverse_append, Json.find_append]
        cases Json.find e.keyColumn p.columns.reverse with
        | none => exact ⟨k, by simp [Json.find]⟩
        | some k' => exact ⟨k', rfl⟩
      obtain ⟨row, hrow, hassigned⟩ := assignedIn_new s.settings column hkey number
      exact .inr (.inr ⟨row, congrArg ([·]) hrow, hassigned⟩)

end Session

/-! ## What a row has when its links are written -/

/-- Whether a cell has what a value stands for: the value was read from it or written to it. -/
def Sql.Engine.Keeps (E : Engine) (cell : Option String) (v : Option Json) : Prop :=
  Engine.Shows cell v ∨ cell = v.bind E.value

namespace Sql.Engine.Keeps

variable {E : Engine} {cell : Option String} {v : Option Json}

theorem eq_plain {k : Json} (h : E.Keeps cell (some k)) (hk : IsKey k) : cell = some k.plain := by
  rcases h with h | h
  · cases k with
    | str | num => exact h
    | null | bool | arr | obj => cases hk
  · exact h.trans (hk.value E)

theorem isBlank (h : E.Keeps cell v) (hv : ∀ j, v = some j → j.isBlank = true) :
    cell = none ∨ cell = some "" := by
  cases v with
  | none => exact h.elim .inl .inl
  | some j =>
    have hj := hv j rfl
    cases j with
    | null => exact h.elim .inl .inl
    | str s =>
      obtain rfl : s = "" := by simpa [Json.isBlank] using hj
      refine .inr (h.elim id fun h => h.trans ?_)
      exact IsLiteral.value (k := .str "") rfl E
    | bool | num | arr | obj => cases hj

end Sql.Engine.Keeps

/-- What is known of a record before a call writes for it, and of what is written before a statement
for one of its links: it is stored as it was found, or not at all if it is new, and nothing but the
statement about its row changes the column, and nothing its key. -/
structure Writing.Stands (c : Writing) (E : Engine) (T : Tables) (earlier : List LinkStatement)
    (column : String) : Prop where
  key : IsKey c.base.key
  found : ∀ r ∈ T c.base.entity.table, r c.base.entity.keyColumn = some c.base.key.plain →
    ¬ c.IsNew ∧ Engine.Shows (r column) (Json.find column c.base.row)
  kept : ∀ o, ¬ c.Overwrites c.base.entity.keyColumn o
  time : ∀ table row, .insert table row ∈ c.row → ⟨column, .now⟩ ∉ row
  others : ∀ x ∈ earlier, x.write.Spares c.base.entity.table [c.base.entity.keyColumn, column]

/-- Whether a row is that of the record when some statements for its links were carried out. -/
def Writing.RowAt (c : Writing) (E : Engine) (earlier : List LinkStatement) (column : String)
    (r : Stored) : Prop :=
  ∃ T T', c.Stands E T earlier column ∧
    E.run T (c.row ++ earlier.map (·.write)) = some T' ∧ r ∈ T' c.base.entity.table ∧
    r c.base.entity.keyColumn = some c.base.key.plain

/-- What the statement about the row makes of a cell: it stays as it was found or inserted, or it is
overwritten. -/
structure Writing.Leaves (c : Writing) (E : Engine) (column : String) (cell : Option String) :
    Prop where
  kept : (∀ o, ¬ c.Overwrites column o) → E.Keeps cell (Json.find column c.base.row)
  overwritten : ∀ o, c.Overwrites column o → cell = E.eval o

section Rows

variable {c : Writing} {E : Engine} {T T₁ : Tables} {earlier : List LinkStatement}
  {column : String} {r : Stored}

theorem Writing.overwrites_iff {table : String} {row : List Assignment} {tests : List Predicate}
    (h : c.row = [.update table row tests]) {o : Operand} :
    c.Overwrites column o ↔ assignedIn row column = some o := by
  simp [Overwrites, h]

theorem Writing.not_overwrites (h : ∀ table row tests, .update table row tests ∉ c.row)
    (o : Operand) : ¬ c.Overwrites column o :=
  fun ⟨table, row, tests, hw, _⟩ => h table row tests hw

namespace Writing.Stands

theorem leaves_of_nil (h : c.Stands E T earlier column) (hrow : c.row = [])
    (hrun : E.run T c.row = some T₁) (hr : r ∈ T₁ c.base.entity.table)
    (hkey : r c.base.entity.keyColumn = some c.base.key.plain) : c.Leaves E column (r column) := by
  have hnot : ∀ o, ¬ c.Overwrites column o := not_overwrites (by simp [hrow])
  rw [hrow] at hrun
  cases hrun
  exact ⟨fun _ => .inl (h.found r hr hkey).2, fun o ho => absurd ho (hnot o)⟩

/-- An update reaches the row, since it does not change the key that it looks for. -/
theorem leaves_of_update (h : c.Stands E T earlier column) {row : List Assignment}
    (hrow : c.row = [.update c.base.entity.table row [c.base.isRow]])
    (hrun : E.run T c.row = some T₁) (hr : r ∈ T₁ c.base.entity.table)
    (hkey : r c.base.entity.keyColumn = some c.base.key.plain) : c.Leaves E column (r column) := by
  have hkept {column' : String} (hnot : ∀ o, ¬ c.Overwrites column' o) (r₀ : Stored) :
      E.assign row r₀ column' = r₀ column' := by
    refine Engine.assign_of_not_mem (assignedIn_eq_none.1 ?_) r₀
    exact Option.eq_none_iff_forall_ne_some.2 fun o ho => hnot o ((overwrites_iff hrow).2 ho)
  rw [hrow, run_singleton] at hrun
  cases hrun
  rw [Function.update_self] at hr
  obtain ⟨r₀, hr₀, rfl⟩ := List.mem_map.1 hr
  have hkey₀ : r₀ c.base.entity.keyColumn = some c.base.key.plain := by
    split at hkey
    · rwa [hkept h.kept] at hkey
    · exact hkey
  have htests : [c.base.isRow].all (E.holds r₀) = true := (all_columnIs_eq_true h.key).2 hkey₀
  rw [if_pos htests]
  refine ⟨fun hnot => ?_, fun o ho => assign_of_assignedIn ((overwrites_iff hrow).1 ho)⟩
  rw [hkept hnot]
  exact .inl (h.found r₀ hr₀ hkey₀).2

/-- After an insert the row is the new one, since no row had its key before. -/
theorem leaves_of_insert (h : c.Stands E T earlier column) {row : List Assignment}
    (hrow : c.row = [.insert c.base.entity.table row])
    (hassigned : assignedIn row column = (Json.find column c.base.row).map .value)
    (hrun : E.run T c.row = some T₁) (hr : r ∈ T₁ c.base.entity.table)
    (hkey : r c.base.entity.keyColumn = some c.base.key.plain) : c.Leaves E column (r column) := by
  have hnew : c.IsNew := ⟨c.base.entity.table, row, by simp [hrow]⟩
  have hnot : ∀ o, ¬ c.Overwrites column o := not_overwrites (by simp [hrow])
  rw [hrow, run_singleton] at hrun
  obtain ⟨-, rfl⟩ := exec_insert hrun
  rw [Function.update_self, List.mem_append, List.mem_singleton] at hr
  rcases hr with hr | rfl
  · exact absurd hnew (h.found r hr hkey).1
  · refine ⟨fun _ => .inr ?_, fun o ho => absurd ho (hnot o)⟩
    cases hfind : Json.find column c.base.row with
    | none =>
      rw [hfind] at hassigned
      exact Engine.assign_of_not_mem (assignedIn_eq_none.1 hassigned) _
    | some v =>
      rw [hfind] at hassigned
      exact assign_of_assignedIn hassigned

end Writing.Stands

end Rows

/-- The row has what it was found or inserted with, or else what it was overwritten with. -/
theorem Session.Writes.cell_of_rowAt {s : Session} {caller : Caller} {catalog : Catalog}
    {e : Entity} {t : List Exchange} {call : Call} {c : Writing} {E : Engine}
    {earlier : List LinkStatement} {column : String} {r : Stored}
    (h : s.Writes caller catalog e t call c) (hr : c.RowAt E earlier column r) :
    c.Leaves E column (r column) := by
  obtain ⟨T, T', hstands, hrun, hmem, hkey⟩ := hr
  rw [Engine.run_append] at hrun
  obtain ⟨T₁, hrow, hrun⟩ := Option.bind_eq_some_iff.1 hrun
  -- The statements for links leave the key and the column as the statement about the row does.
  have hagree : T'.Agree T₁ c.base.entity.table [c.base.entity.keyColumn, column] := by
    refine Engine.run_agree (fun w hw => ?_) hrun
    obtain ⟨x, hx, rfl⟩ := List.mem_map.1 hw
    exact hstands.others x hx
  obtain ⟨r₁, hr₁, hcells⟩ := hagree.mem hmem
  obtain ⟨hkey₁, hcolumn₁⟩ : r₁ c.base.entity.keyColumn = r c.base.entity.keyColumn ∧
    r₁ column = r column := by simpa using hcells
  rw [← hcolumn₁]
  rw [← hkey₁] at hkey
  obtain rfl := h.entity_eq
  rcases h.row_eq column with hnone | ⟨row, hupdate⟩ | ⟨row, hinsert, hassigned⟩
  · exact hstands.leaves_of_nil hnone hrow hr₁ hkey
  · exact hstands.leaves_of_update hupdate hrow hr₁ hkey
  · have htime := hstands.time c.base.entity.table row (by simp [hinsert])
    exact hstands.leaves_of_insert hinsert (hassigned htime) hrow hr₁ hkey

end CatalogQuery
