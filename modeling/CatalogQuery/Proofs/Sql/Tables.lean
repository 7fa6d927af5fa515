import CatalogQuery.Sql.Statement
import Mathlib.Data.List.Forall2
import Mathlib.Logic.Function.Basic

/-!
# What statements mean on tables

A table is a list of rows, and a row has in each column a text or nothing. Values are compared as
text, and nothing is equal to nothing. What a database computes of its own accord, such as what the
call of a function gives, is left open. Main statement: writes that spare some columns of a table leave
them as they are.
-/

namespace CatalogQuery.Sql

/-- What a row has in each column; none is null. -/
abbrev Stored := String → Option String

/-- The rows of each table. -/
abbrev Tables := String → List Stored

/-- Tables with the rows and cells that a list gives them. -/
def Tables.ofCells (cells : List (String × List (List (String × String)))) : Tables := fun table =>
  ((cells.lookup table).getD []).map fun row c => row.lookup c

/-- What a database makes of the parts of statements that are up to it. -/
structure Engine where
  /-- What the call of a function gives. -/
  call : List Char → Option String
  /-- What an operand gives that is neither a value nor a text. -/
  operand : Operand → Option String
  /-- Whether a row satisfies a predicate that is not the test of a column for values. -/
  test : Predicate → Stored → Bool

/-- Whether two stored values are equal; null is equal to nothing. -/
def same : Option String → Option String → Bool
  | some a, some b => a == b
  | _, _ => false

namespace Engine

/-- What is stored of a value. A text that is the call of a function stands for what it gives. -/
def value (E : Engine) : Json → Option String
  | .null => none
  | .bool b => some (if b then "1" else "0")
  | .str s => if isCall s.toList then E.call (Text.trim s.toList) else some s
  | v => some v.text

def eval (E : Engine) : Operand → Option String
  | .value v => E.value v
  | .text s => some s
  | o => E.operand o

def holds (E : Engine) (r : Stored) : Predicate → Bool
  | .compare (.bare c) .eq o => same (r c) (E.eval o)
  | .oneOf (.bare c) items false => items.any fun o => same (r c) (E.eval o)
  | p => E.test p r

/-- A row after some assignments, one after another. -/
def assign (E : Engine) (row : List Assignment) (r : Stored) : Stored :=
  row.foldl (fun r a => Function.update r a.column (E.eval a.value)) r

/-- The tables after a write; none for a write that is refused, as a column that an insert names
twice. -/
def exec (E : Engine) (T : Tables) : Write → Option Tables
  | .insert table row =>
    if (row.map Assignment.column).Nodup then
      some (Function.update T table (T table ++ [E.assign row fun _ => none]))
    else none
  | .insertPair table left right =>
    if left.column = right.column then none
    else if (T table).any fun r =>
        same (r left.column) (E.eval left.value) && same (r right.column) (E.eval right.value) then
      some T
    else some (Function.update T table (T table ++ [E.assign [left, right] fun _ => none]))
  | .update table row tests =>
    some (Function.update T table
      ((T table).map fun r => if tests.all (E.holds r) then E.assign row r else r))
  | .delete table tests =>
    some (Function.update T table ((T table).filter fun r => !tests.all (E.holds r)))

/-- The tables after several writes. -/
def run (E : Engine) : Tables → List Write → Option Tables
  | T, [] => some T
  | T, w :: rest => (E.exec T w).bind fun T => E.run T rest

/-- Whether a value that comes back shows what is stored in a column. -/
def Shows (cell : Option String) : Option Json → Prop
  | none | some .null => cell = none
  | some (.str s) => cell = some s
  | some (.num n) => cell = some (Json.num n).plain
  | _ => False

/-- Whether rows answer a read of columns of one table: one for each stored row that satisfies the
filter, in any order. -/
def Answers (E : Engine) (T : Tables) (s : Select) (rows : List Row) : Prop :=
  ∃ stored, stored.Perm ((T s.source.table).filter fun r => s.filter.all (E.holds r)) ∧
    List.Forall₂ (fun r row => ∀ c called, Selected.named (.bare c) called ∈ s.columns →
      Shows (r c) (Json.find called row)) stored rows

end Engine

theorem forall₂_and {α β : Type} {R S : α → β → Prop} {as : List α} {bs : List β}
    (h : List.Forall₂ R as bs) (h' : List.Forall₂ S as bs) :
    List.Forall₂ (fun a b => R a b ∧ S a b) as bs :=
  List.forall₂_iff_zip.2 ⟨h.length_eq, fun hmem =>
    ⟨List.forall₂_zip h hmem, List.forall₂_zip h' hmem⟩⟩

theorem same_eq_true {a b : Option String} : same a b = true ↔ ∃ s, a = some s ∧ b = some s := by
  cases a with
  | none => simp [same]
  | some s =>
    cases b with
    | none => simp [same]
    | some t => simp [same, @eq_comm _ t]

theorem same_comm (a b : Option String) : same a b = same b a := by
  cases a <;> cases b <;> first | rfl | exact Bool.beq_comm

/-- Whether a value is a text that is no function call, or a number. -/
def IsLiteral : Json → Prop
  | .str s => isCall s.toList = false
  | .num _ => True
  | _ => False

/-- A literal is stored as its text. -/
theorem IsLiteral.value {k : Json} (h : IsLiteral k) (E : Engine) : E.value k = some k.plain := by
  cases k with
  | str s => simp [Engine.value, Json.plain, show isCall s.toList = false from h]
  | num n => rfl
  | null | bool | arr | obj => cases h

namespace Engine

variable {E : Engine} {T T' : Tables}

/-- A record of the cells of a row shows the row. -/
theorem shows_lookup (cells : List (String × String)) (c : String) :
    Shows (cells.lookup c) (Json.find c (cells.map fun x => (x.1, .str x.2))) := by
  induction cells with
  | nil => rfl
  | cons x rest ih =>
    obtain ⟨column, text⟩ := x
    by_cases hc : column = c
    · subst hc
      simp [Json.find, Shows]
    · have hne : (c == column) = false := by simpa using Ne.symm hc
      simpa [Json.find, List.lookup_cons, hc, hne] using ih

theorem run_append (ws us : List Write) :
    E.run T (ws ++ us) = (E.run T ws).bind fun T => E.run T us := by
  induction ws generalizing T with
  | nil => rfl
  | cons w rest ih =>
    simp only [List.cons_append, run, Option.bind_assoc, ih]

theorem assign_of_not_mem {row : List Assignment} {c : String}
    (h : ∀ a ∈ row, a.column ≠ c) (r : Stored) : E.assign row r c = r c := by
  induction row generalizing r with
  | nil => rfl
  | cons a rest ih =>
    rw [List.forall_mem_cons] at h
    exact (ih h.2 _).trans (Function.update_of_ne h.1.symm _ _)

end Engine

/-! ## Columns that are spared -/

def Write.table : Write → String
  | insert table _ | insertPair table _ _ | update table _ _ | delete table _ => table

/-- Whether a write leaves the rows of a table and what they have in some columns alone. -/
def Write.Spares (w : Write) (table : String) (columns : List String) : Prop :=
  match w with
  | update t row _ => t = table → ∀ a ∈ row, a.column ∉ columns
  | w => w.table ≠ table

/-- Whether two databases have the same rows in a table, as far as some columns go. -/
def Tables.Agree (T T' : Tables) (table : String) (columns : List String) : Prop :=
  (T table).map (fun r => columns.map r) = (T' table).map (fun r => columns.map r)

namespace Tables.Agree

variable {T T' : Tables} {table : String} {columns : List String}

theorem mem {r : Stored} (h : T.Agree T' table columns) (hr : r ∈ T table) :
    ∃ r' ∈ T' table, ∀ c ∈ columns, r' c = r c := by
  have hmem : columns.map r ∈ (T' table).map (fun r => columns.map r) :=
    h ▸ List.mem_map_of_mem hr
  obtain ⟨r', hr', heq⟩ := List.mem_map.1 hmem
  exact ⟨r', hr', List.map_inj_left.1 heq⟩

theorem mono {columns' : List String} (h : T.Agree T' table columns)
    (hsub : ∀ c ∈ columns', c ∈ columns) : T.Agree T' table columns' := by
  rw [Tables.Agree, ← List.forall₂_eq_eq_eq, List.forall₂_map_left_iff,
    List.forall₂_map_right_iff] at h ⊢
  exact h.imp fun r r' heq => List.map_congr_left fun c hc => List.map_inj_left.1 heq c (hsub c hc)

end Tables.Agree

namespace Engine

variable {E : Engine} {T T' : Tables} {table : String} {columns : List String}

theorem exec_agree {w : Write} (hw : w.Spares table columns) (h : E.exec T w = some T') :
    T'.Agree T table columns := by
  have hother {t : String} {rows : List Stored} (ht : t ≠ table) :
      Tables.Agree (Function.update T t rows) T table columns := by
    rw [Tables.Agree, Function.update_of_ne ht.symm]
  cases w with
  | insert t row =>
    rw [exec] at h
    split at h <;> cases h
    exact hother hw
  | insertPair t left right =>
    rw [exec] at h
    split at h
    · cases h
    split at h <;> cases h
    · exact rfl
    · exact hother hw
  | delete t tests =>
    cases h
    exact hother hw
  | update t row tests =>
    cases h
    by_cases ht : t = table
    · subst ht
      rw [Tables.Agree, Function.update_self, List.map_map]
      refine List.map_congr_left fun r _ => List.map_congr_left fun c hc => ?_
      have hcolumns : ∀ a ∈ row, a.column ≠ c := fun a ha hac => hw rfl a ha (hac ▸ hc)
      dsimp only
      split
      · exact assign_of_not_mem hcolumns r
      · rfl
    · exact hother ht

/-- Writes leave alone what each of them spares. -/
theorem run_agree {ws : List Write} (hws : ∀ w ∈ ws, w.Spares table columns)
    (h : E.run T ws = some T') : T'.Agree T table columns := by
  induction ws generalizing T with
  | nil =>
    cases h
    rfl
  | cons w rest ih =>
    rw [List.forall_mem_cons] at hws
    obtain ⟨T₁, hexec, hrun⟩ := Option.bind_eq_some_iff.1 h
    exact (ih hws.2 hrun).trans (exec_agree hws.1 hexec)

end Engine

end CatalogQuery.Sql
