import CatalogQuery.Proofs.Link.Mirror
import CatalogQuery.Proofs.Save.Edits
import Mathlib.Logic.Relation

/-!
# One to one links between two objects

A one to one connection of two objects is held in a column of one of them, which both ends write.
Main statement: rows go on holding different records, unless a record is linked from the end that
holds the links while another row holds it.
-/

namespace CatalogQuery

open Sql Write

/-- Both ends of a one to one connection of two objects, of which `f` of `a` holds the links. -/
structure OneToOne (catalog : Catalog) (a b : Entity) (f g : Field) (c d : Connection) : Prop where
  object : catalog.entity? a.id = some a
  object' : catalog.entity? b.id = some b
  different : a.id ≠ b.id
  connection : f.connection? = some c
  connection' : g.connection? = some d
  target : c.target = b.id
  target' : d.target = a.id
  shape : c.shape = .oneToOne
  shape' : d.shape = .oneToOne
  source : c.isSource = true
  source' : d.isSource = false
  reverse : d.reverse.bind a.fieldById = some f

namespace OneToOne

variable {settings : Settings} {catalog : Catalog} {a b : Entity} {f g : Field} {c d : Connection}
  {l m : Link}

theorem holder_eq (h : OneToOne catalog a b f g c d)
    (hl : (Link.ofField settings catalog a f c).1 = some l) :
    (∃ key, l.keys = .own f.column key) ∧ isSelfPair a l = false := by
  have hkeys : (Link.keysOf settings a b f c).1 =
      some (.own f.column ((Link.overrides a b c).target.getD b.keyColumn)) := by
    simp [Link.keysOf, h.shape, h.source]
  rw [Link.ofField_of_entity? (h.target ▸ h.object') hkeys] at hl
  cases hl
  exact ⟨⟨_, rfl⟩, by simp [isSelfPair, h.different.symm]⟩

theorem held_eq (h : OneToOne catalog a b f g c d)
    (hm : (Link.ofField settings catalog b g d).1 = some m) :
    (∃ source, m.keys = .linked f.column source) ∧ m.shape = .oneToOne ∧ m.target = a.id ∧
      m.targetTable = a.table := by
  have hkeys : (Link.keysOf settings b a g d).1 =
      some (.linked f.column ((Link.overrides b a d).source.getD b.keyColumn)) := by
    simp [Link.keysOf, h.shape', h.source', h.reverse]
  rw [Link.ofField_of_entity? (h.target' ▸ h.object) hkeys] at hm
  cases hm
  exact ⟨⟨_, rfl⟩, h.shape', rfl, rfl⟩

end OneToOne

/-! ## Different values -/

/-- Whether no two rows of a table have one value in a column, of those values that count. -/
def Sql.Tables.Differ (T : Tables) (table column : String) (counts : String → Prop) : Prop :=
  (T table).Pairwise fun r r' => ∀ v, counts v → ¬ (r column = some v ∧ r' column = some v)

section Differ

variable {E : Engine} {T T' : Tables} {table column : String} {counts : String → Prop}

theorem Sql.Tables.Differ.of_agree {columns : List String} (h : T.Differ table column counts)
    (hagree : T'.Agree T table columns) (hcolumn : column ∈ columns) :
    T'.Differ table column counts := by
  have hcells : (T' table).map (fun r => [column].map r) = (T table).map fun r => [column].map r :=
    hagree.mono fun c hc => by rwa [List.mem_singleton.1 hc]
  have hcells : (T' table).map (· column) = (T table).map (· column) := by
    simpa [Function.comp_def] using congrArg (List.map fun l => l.head?.join) hcells
  have hof (T : Tables) : T.Differ table column counts ↔ ((T table).map (· column)).Pairwise
      fun x y => ∀ v, counts v → ¬ (x = some v ∧ y = some v) := by
    rw [Tables.Differ, List.pairwise_map]
  rw [hof] at h ⊢
  rwa [hcells]

theorem differ_of_two {r r' : Stored} (hrows : T table = [r, r']) (hne : r column ≠ r' column) :
    T.Differ table column counts := by
  rw [Tables.Differ, hrows]
  refine List.pairwise_pair.2 fun v _ hboth => hne ?_
  exact hboth.1.trans hboth.2.symm

/-- Rows differ after one column was set where at most one row gets a value, and a value that only
that row had. -/
theorem differ_of_update {set : String} {o : Operand} {tests : List Predicate}
    (h : T.Differ table column counts)
    (hset : set = column → ∀ v, E.eval o = some v → counts v →
      (∀ r ∈ T table, r column = some v → tests.all (E.holds r) = true) ∧
      (T table).Pairwise fun r r' =>
        ¬ (tests.all (E.holds r) = true ∧ tests.all (E.holds r') = true))
    (hexec : E.exec T (.update table [⟨set, o⟩] tests) = some T') :
    T'.Differ table column counts := by
  cases hexec
  rw [Tables.Differ, Function.update_self, List.pairwise_map]
  have hcell (r : Stored) : (if tests.all (E.holds r) then E.assign [⟨set, o⟩] r else r) column =
      if set = column ∧ tests.all (E.holds r) = true then E.eval o else r column := by
    have hassign : E.assign [⟨set, o⟩] r column = if set = column then E.eval o else r column := by
      simp [Engine.assign, Function.update_apply, eq_comm]
    cases tests.all (E.holds r) with
    | true => simp [hassign]
    | false => simp
  simp only [hcell]
  by_cases hset' : set = column ∧ ∃ v, E.eval o = some v ∧ counts v
  · -- Of two rows with the new value one was set and the other had it, or both were set.
    obtain ⟨rfl, v, hv, hcounts⟩ := hset'
    obtain ⟨honly, hone⟩ := hset rfl v hv hcounts
    refine (hone.and h).imp_of_mem fun {r r'} hr hr' hpair w hw => ?_
    obtain ⟨hboth, hdiffer⟩ := hpair
    rintro ⟨hrw, hrw'⟩
    simp only [true_and] at hrw hrw'
    split at hrw <;> split at hrw'
    · exact hboth ⟨‹_›, ‹_›⟩
    · cases hv.symm.trans hrw
      exact absurd (honly r' hr' hrw') ‹_›
    · cases hv.symm.trans hrw'
      exact absurd (honly r hr hrw) ‹_›
    · exact hdiffer w hw ⟨hrw, hrw'⟩
  · -- No row gets a value that counts.
    refine h.imp fun {r r'} hdiffer w hw => ?_
    rintro ⟨hrw, hrw'⟩
    have hkept {x : Stored} (hx : (if set = column ∧ tests.all (E.holds x) = true then E.eval o
        else x column) = some w) : x column = some w := by
      split at hx
      · rename_i hfound
        exact absurd ⟨hfound.1, w, hx, hw⟩ hset'
      · exact hx
    exact hdiffer w hw ⟨hkept hrw, hkept hrw'⟩

theorem differ_of_setNull {set : String} {tests : List Predicate}
    (h : T.Differ table column counts)
    (hexec : E.exec T (.update table [setNull set] tests) = some T') :
    T'.Differ table column counts :=
  differ_of_update h (fun _ _ hv => by cases hv) hexec

/-- At most one row is found by a value of a column in which rows differ. -/
theorem pairwise_of_differ (h : T.Differ table column fun _ => True) (k : Json) :
    (T table).Pairwise fun r r' => ¬ ([columnIs column k].all (E.holds r) = true ∧
      [columnIs column k].all (E.holds r') = true) := by
  have hvalue (r : Stored) (hr : [columnIs column k].all (E.holds r) = true) :
      ∃ v, r column = some v ∧ E.value k = some v := by
    rw [List.all_cons, List.all_nil, Bool.and_true] at hr
    exact same_eq_true.1 hr
  refine h.imp fun hdiffer hboth => ?_
  obtain ⟨hr, hr'⟩ := hboth
  obtain ⟨v, hv, hk⟩ := hvalue _ hr
  obtain ⟨v', hv', hk'⟩ := hvalue _ hr'
  cases hk.symm.trans hk'
  exact hdiffer v trivial ⟨hv, hv'⟩

end Differ

/-! ## Along a run -/

/-- Whether something is so of the tables before the first of some writes and after each of them. -/
def Sql.Engine.Along (E : Engine) (P : Tables → Prop) : Tables → List Sql.Write → Prop
  | T, [] => P T
  | T, w :: rest => P T ∧ ∀ T', E.exec T w = some T' → E.Along P T' rest

namespace Sql.Engine.Along

variable {E : Engine} {P : Tables → Prop} {T T' : Tables} {ws us : List Sql.Write}

theorem head (h : E.Along P T us) : P T := by
  cases us with
  | nil => exact h
  | cons w rest => exact h.1

theorem append (h : E.Along P T ws) (hrest : ∀ T', E.run T ws = some T' → E.Along P T' us) :
    E.Along P T (ws ++ us) := by
  induction ws generalizing T with
  | nil => exact hrest T rfl
  | cons w rest ih =>
    refine ⟨h.1, fun T₁ hexec => ih (h.2 T₁ hexec) fun T' hrun => hrest T' ?_⟩
    exact Option.bind_eq_some_iff.2 ⟨T₁, hexec, hrun⟩

/-- It is so wherever the run breaks off. -/
theorem of_beginning (h : E.Along P T us) (hws : ws <+: us) (hrun : E.run T ws = some T') : P T' := by
  induction ws generalizing T us with
  | nil =>
    cases hrun
    exact h.head
  | cons w rest ih =>
    obtain ⟨T₁, hexec, hrun⟩ := Option.bind_eq_some_iff.1 hrun
    cases us with
    | nil => simp at hws
    | cons w' us =>
      obtain ⟨rfl, hrest⟩ := List.cons_prefix_cons.1 hws
      exact ih (h.2 T₁ hexec) hrest hrun

end Sql.Engine.Along

/-- Whether something is so of the tables and a change of links whenever a change has its turn. -/
def Turns (E : Engine) (base : Base) (ok : Tables → LinkChange → Prop) :
    Tables → List LinkChange → Prop
  | _, [] => True
  | T, c :: rest =>
    ok T c ∧ ∀ T', E.run T (c.statements base) = some T' → Turns E base ok T' rest

/-! ## Rows that hold different records -/

/-- Whether the rows of an object have different keys and hold different records. -/
structure HoldsApart (a : Entity) (f : Field) (T : Tables) : Prop where
  keys : T.Differ a.table a.keyColumn fun _ => True
  records : T.Differ a.table f.column (· ≠ "")

/-- Whether a record that is linked from the end that holds the links is held by no other row. -/
def IsFree (E : Engine) (a : Entity) (f : Field) (l : Link) (base : Base) (T : Tables)
    (c : LinkChange) : Prop :=
  c.link = l → c.adds = true →
    ∀ r ∈ T a.table, same (r f.column) (E.value c.key) = true → E.holds r base.isRow = true

/-- What is asked of an edit by one end of a one to one connection: rows get keys that no other row
has, and what else is written leaves the keys and the column that holds the links alone. -/
structure EditsThrough (E : Engine) (a : Entity) (f : Field) (l : Link) (T : Tables) (u : Edit) :
    Prop where
  row : ∀ w ∈ u.row, w.LeavesColumn a.table [] f.column
  keys : ∀ w ∈ u.row, ∀ T', E.exec T w = some T' → T'.Differ a.table a.keyColumn fun _ => True
  others : ∀ c ∈ u.changes, c.link ≠ l →
    ∀ w ∈ c.statements u.base, w.LeavesColumn a.table [a.keyColumn] f.column

section Edit

variable {E : Engine} {T T' : Tables} {a : Entity} {f : Field} {l : Link} {base : Base}

theorem HoldsApart.of_agree (h : HoldsApart a f T)
    (hagree : T'.Agree T a.table [a.keyColumn, f.column]) : HoldsApart a f T' :=
  ⟨h.keys.of_agree hagree (by simp), h.records.of_agree hagree (by simp)⟩

theorem along_of_spares {ws : List Sql.Write} (h : HoldsApart a f T)
    (hws : ∀ w ∈ ws, w.Spares a.table [a.keyColumn, f.column]) :
    E.Along (HoldsApart a f) T ws := by
  induction ws generalizing T with
  | nil => exact h
  | cons w rest ih =>
    obtain ⟨hw, hrest⟩ := List.forall_mem_cons.1 hws
    exact ⟨h, fun T₁ hexec => ih (h.of_agree (Engine.exec_agree hw hexec)) hrest⟩

theorem holdsApart_of_setNull {tests : List Predicate} (h : HoldsApart a f T)
    (hexec : E.exec T (.update a.table [setNull f.column] tests) = some T') : HoldsApart a f T' :=
  ⟨differ_of_setNull h.keys hexec, differ_of_setNull h.records hexec⟩

/-- A row that is found by its key may hold what no other row holds. -/
theorem holdsApart_of_setTo {k v : Json} (h : HoldsApart a f T)
    (hfree : ∀ r ∈ T a.table, same (r f.column) (E.value v) = true →
      E.holds r (columnIs a.keyColumn k) = true)
    (hexec : E.exec T (.update a.table [setTo f.column v] [columnIs a.keyColumn k]) = some T') :
    HoldsApart a f T' := by
  have hset (x : String) (hx : E.eval (.value v) = some x) :
      (∀ r ∈ T a.table, r f.column = some x →
        [columnIs a.keyColumn k].all (E.holds r) = true) ∧
      (T a.table).Pairwise fun r r' => ¬ ([columnIs a.keyColumn k].all (E.holds r) = true ∧
        [columnIs a.keyColumn k].all (E.holds r') = true) := by
    refine ⟨fun r hr hrow => ?_, pairwise_of_differ h.keys k⟩
    rw [List.all_cons, List.all_nil, Bool.and_true]
    exact hfree r hr (same_eq_true.2 ⟨x, hrow, hx⟩)
  constructor
  · refine differ_of_update h.keys (fun hcolumn x hx _ => ?_) hexec
    obtain ⟨honly, hone⟩ := hset x hx
    refine ⟨fun r hr hrow => honly r hr ?_, hone⟩
    rwa [show f.column = a.keyColumn from hcolumn]
  · exact differ_of_update h.records (fun _ x hx _ => hset x hx) hexec

/-- A statement about a row leaves what rows hold alone. -/
theorem along_row {u : Edit} (h : HoldsApart a f T) (hedit : EditsThrough E a f l T u)
    (hrow : u.row = [] ∨ ∃ w, u.row = [w]) : E.Along (HoldsApart a f) T u.row := by
  rcases hrow with hrow | ⟨w, hrow⟩
  · rw [hrow]
    exact h
  have hw := hedit.row w (by simp [hrow])
  have hkeys := hedit.keys w (by simp [hrow])
  rw [hrow]
  refine ⟨h, fun T₁ hexec => ⟨hkeys T₁ hexec, ?_⟩⟩
  have hspared (hw : w.Spares a.table [f.column]) : T₁.Differ a.table f.column (· ≠ "") :=
    h.records.of_agree (Engine.exec_agree hw hexec) (by simp)
  cases w with
  | insert table row =>
    by_cases htable : table = a.table
    · obtain ⟨-, rfl⟩ := exec_insert hexec
      subst htable
      have hnew : E.assign row (fun _ => none) f.column = none :=
        Engine.assign_of_not_mem (hw rfl) _
      rw [Tables.Differ, Function.update_self, List.pairwise_append]
      refine ⟨h.records, List.pairwise_singleton _ _, fun r _ r' hr' v _ hboth => ?_⟩
      rw [List.mem_singleton.1 hr', hnew] at hboth
      cases hboth.2
    · exact hspared (spares_of_table_ne htable)
  | insertPair | update | delete => exact hspared hw

theorem along_changes {ok : Tables → LinkChange → Prop} {changes : List LinkChange}
    (h : HoldsApart a f T)
    (hchange : ∀ T, ∀ c ∈ changes, ok T c → HoldsApart a f T →
      E.Along (HoldsApart a f) T (c.statements base))
    (hturns : Turns E base ok T changes) :
    E.Along (HoldsApart a f) T (changes.flatMap (LinkChange.statements base)) := by
  induction changes generalizing T with
  | nil => exact h
  | cons c rest ih =>
    have hfirst := hchange T c List.mem_cons_self hturns.1 h
    rw [List.flatMap_cons]
    refine hfirst.append fun T₁ hrun => ?_
    exact ih (hfirst.of_beginning List.prefix_rfl hrun)
      (fun T d hd => hchange T d (List.mem_cons_of_mem _ hd)) (hturns.2 T₁ hrun)

/-- Whatever is written at the end that holds the links. -/
theorem along_holder {key : String} (hkeys : l.keys = .own f.column key)
    (hpair : isSelfPair a l = false) (hentity : base.entity = a) {c : LinkChange}
    (hothers : c.link ≠ l → ∀ w ∈ c.statements base, w.LeavesColumn a.table [a.keyColumn] f.column)
    (hfree : IsFree E a f l base T c) (h : HoldsApart a f T) :
    E.Along (HoldsApart a f) T (c.statements base) := by
  subst hentity
  obtain ⟨link, keyColumn, adds, k⟩ := c
  by_cases hl : link = l
  · subst hl
    cases adds with
    | true =>
      simp only [LinkChange.statements, if_true, relate, hkeys, hpair, Bool.false_eq_true, if_false]
      exact ⟨h, fun T₁ => holdsApart_of_setTo h (hfree rfl rfl)⟩
    | false =>
      simp only [LinkChange.statements, Bool.false_eq_true, if_false, unrelate, hkeys, hpair]
      exact ⟨h, fun T₁ => holdsApart_of_setNull h⟩
  · exact along_of_spares h fun w hw => LinkChange.spares_of_leaves hw (hothers hl w hw)

/-- Whatever is written at the other end, where the row that held a record gives way. -/
theorem along_held {source : String} (hkeys : l.keys = .linked f.column source)
    (hshape : l.shape = .oneToOne) (htable : l.targetTable = a.table) {c : LinkChange}
    (hcolumn : c.link = l → c.keyColumn = a.keyColumn)
    (hothers : c.link ≠ l → ∀ w ∈ c.statements base, w.LeavesColumn a.table [a.keyColumn] f.column)
    (h : HoldsApart a f T) : E.Along (HoldsApart a f) T (c.statements base) := by
  obtain ⟨link, keyColumn, adds, k⟩ := c
  by_cases hl : link = l
  · subst hl
    obtain rfl : keyColumn = a.keyColumn := hcolumn rfl
    cases adds with
    | true =>
      simp only [LinkChange.statements, if_true, relate, hkeys, hshape, beq_self_eq_true, htable]
      refine ⟨h, fun T₁ hclear => ⟨holdsApart_of_setNull h hclear, fun T₂ hset => ?_⟩⟩
      refine holdsApart_of_setTo (holdsApart_of_setNull h hclear) (fun r hr hsame => ?_) hset
      -- No row holds the record any more.
      exfalso
      cases hclear
      rw [Function.update_self] at hr
      obtain ⟨x, -, rfl⟩ := List.mem_map.1 hr
      split at hsame
      · simp [Engine.assign, setNull, Engine.eval, Engine.value, same] at hsame
      · rename_i htests
        exact htests (by rw [List.all_cons, List.all_nil, Bool.and_true]; exact hsame)
    | false =>
      simp only [LinkChange.statements, Bool.false_eq_true, if_false, unrelate, hkeys, htable]
      exact ⟨h, fun T₁ => holdsApart_of_setNull h⟩
  · exact along_of_spares h fun w hw => LinkChange.spares_of_leaves hw (hothers hl w hw)

end Edit

/-! ## Calls through both ends -/

/-- One call through either end of a one to one connection, which may break off. `l` is the link at
the end of `a`, which holds the links in the column of `f`, and `m` the one at the end of `b`. What
is linked through `l` is free when it is its turn. -/
inductive OneToOneStep (settings : Settings) (catalog : Catalog) (a b : Entity) (f : Field)
    (l m : Link) : Tables → Tables → Prop
  | holder {E : Engine} {s : Session} {caller : Caller} {call : Call} {t : List Exchange}
    {r : Result Unit} {T T' : Tables} (hsettings : s.settings = settings)
    (hcall : call.edited? = some a.id) (hruns : (call.program s caller).Runs t r)
    (hmetadata : Exchange.AnsweredWith catalog (LinkMap.ofCatalog settings catalog) t)
    (hrun : E.run T (Exchange.effects a t) = some T')
    (hedit : Exchange.effects a t = [] ∨ ∃ u, s.Edits caller catalog a call t u ∧
      EditsThrough E a f l T u ∧
      ∀ T₁, E.run T u.row = some T₁ → Turns E u.base (IsFree E a f l u.base) T₁ u.changes) :
    OneToOneStep settings catalog a b f l m T T'
  | held {E : Engine} {s : Session} {caller : Caller} {call : Call} {t : List Exchange}
    {r : Result Unit} {T T' : Tables} (hsettings : s.settings = settings)
    (hcall : call.edited? = some b.id) (hruns : (call.program s caller).Runs t r)
    (hmetadata : Exchange.AnsweredWith catalog (LinkMap.ofCatalog settings catalog) t)
    (hrun : E.run T (Exchange.effects b t) = some T')
    (hedit : Exchange.effects b t = [] ∨ ∃ u, s.Edits caller catalog b call t u ∧
      EditsThrough E a f m T u) :
    OneToOneStep settings catalog a b f l m T T'

section Steps

variable {settings : Settings} {catalog : Catalog} {a b : Entity} {f g : Field} {c d : Connection}
  {l m : Link} {T T' : Tables}

theorem Turns.trivial {E : Engine} {base : Base} (T : Tables) (changes : List LinkChange) :
    Turns E base (fun _ _ => True) T changes := by
  induction changes generalizing T with
  | nil => exact True.intro
  | cons c rest ih => exact ⟨True.intro, fun T' _ => ih T'⟩

theorem OneToOneStep.holdsApart (hends : OneToOne catalog a b f g c d)
    (hl : (Link.ofField settings catalog a f c).1 = some l)
    (hm : (Link.ofField settings catalog b g d).1 = some m)
    (hstep : OneToOneStep settings catalog a b f l m T T') (h : HoldsApart a f T) :
    HoldsApart a f T' := by
  cases hstep with
  | holder _ _ _ _ hrun hedit =>
    obtain ⟨⟨key, hkeys⟩, hpair⟩ := hends.holder_eq hl
    rcases hedit with hnothing | ⟨u, hu, hedit, hfree⟩
    · rw [hnothing] at hrun
      cases hrun
      exact h
    have hrow := along_row h hedit hu.planned.row_eq
    refine (hrow.append fun T₁ hrun₁ => ?_).of_beginning hu.starts hrun
    exact along_changes (hrow.of_beginning List.prefix_rfl hrun₁) (fun T c hc hok h =>
      along_holder hkeys hpair hu.planned.entity_eq (hedit.others c hc) hok h) (hfree T₁ hrun₁)
  | held _ _ _ _ hrun hedit =>
    obtain ⟨⟨source, hkeys⟩, hshape, htarget, htable⟩ := hends.held_eq hm
    rcases hedit with hnothing | ⟨u, hu, hedit⟩
    · rw [hnothing] at hrun
      cases hrun
      exact h
    have hcolumn : ∀ c ∈ u.changes, c.link = m → c.keyColumn = a.keyColumn := by
      rintro c hc rfl
      obtain ⟨target, hentity, hkey⟩ := hu.planned.keyColumn_eq c hc
      rw [htarget, Catalog.entity, hends.object] at hentity
      cases hentity
      rw [hkey, hkeys]
      rfl
    have hrow := along_row h hedit hu.planned.row_eq
    refine (hrow.append fun T₁ hrun₁ => ?_).of_beginning hu.starts hrun
    exact along_changes (hrow.of_beginning List.prefix_rfl hrun₁) (fun T c hc _ h =>
      along_held hkeys hshape htable (hcolumn c hc) (hedit.others c hc) h)
      (Turns.trivial T₁ u.changes)

end Steps

/-- A call that changes a record at either end of a one to one connection does nothing to the
database or the beginning of what an edit says. The rows that hold the links go on holding different
records, in whatever order calls are made through both ends and wherever they break off, as long as
records that are linked from the end that holds the links are held by no other row at that time.
From the other end any record may be linked. -/
theorem one_to_one_holds {settings : Settings} {catalog : Catalog} {a b : Entity} {f g : Field}
    {c d : Connection} {l m : Link} (hends : OneToOne catalog a b f g c d)
    (hl : (Link.ofField settings catalog a f c).1 = some l)
    (hm : (Link.ofField settings catalog b g d).1 = some m) :
    (∀ e, e = a ∨ e = b → ∀ (s : Session) (caller : Caller) (call : Call) (t : List Exchange)
      (r : Result Unit), s.settings = settings → call.edited? = some e.id →
      (call.program s caller).Runs t r →
      Exchange.AnsweredWith catalog (LinkMap.ofCatalog settings catalog) t →
      Exchange.effects e t = [] ∨ ∃ u, s.Edits caller catalog e call t u) ∧
    ∀ T T', Relation.ReflTransGen (OneToOneStep settings catalog a b f l m) T T' →
      HoldsApart a f T → HoldsApart a f T' := by
  constructor
  · rintro e he s caller call t r rfl hcall hruns hmetadata
    have hobject : catalog.entity e.id = .ok e := by
      rcases he with rfl | rfl
      · rw [Catalog.entity, hends.object]
      · rw [Catalog.entity, hends.object']
    exact Session.exists_edit hobject hcall hmetadata hruns
  · intro T T' hsteps h
    induction hsteps with
    | refl => exact h
    | tail _ hstep ih => exact hstep.holdsApart hends hl hm ih

/-- An employee changes to another badge, and the old badge goes to a colleague. -/
theorem one_to_one_holds_badges :
    let c : Connection := ⟨"employee", some "g", .one, .one, true, none, none⟩
    let d : Connection := ⟨"badge", some "f", .one, .one, false, none, none⟩
    let f := Field.new "f" "employee" (.connection c)
    let g := Field.new "g" "badge" (.connection d)
    let badge := Entity.new "badge" "Badge" "BADGE" [f]
    let employee := Entity.new "employee" "Employee" "EMPLOYEE" [g]
    let catalog : Catalog := ⟨[badge, employee], [], []⟩
    let s : Session := ⟨{}, {}, .tenant⟩
    let system : Caller := ⟨none, "en", true⟩
    let E : Engine := ⟨fun _ => none, fun _ => none, fun _ _ => false⟩
    let T := Tables.ofCells [("BADGE", [[("uuid", "b1"), ("employee", "e1")], [("uuid", "b2")]]),
      ("EMPLOYEE", [[("uuid", "e1")], [("uuid", "e2")]])]
    let answer (key : String) := Request.steady catalog (LinkMap.ofCatalog {} catalog) fun _ =>
      [[("uuid", .str key)]]
    let first : Call := .relate "employee" (.str "e1") "badge" (.str "b2")
    let second : Call := .relate "badge" (.str "b1") "employee" (.str "e2")
    let t := ((first.program s system).transcript (answer "e1")).1
    let t' := ((second.program s system).transcript (answer "b1")).1
    (first.program s system).Runs t (.ok ()) ∧ (second.program s system).Runs t' (.ok ()) ∧
      ∃ T₁ T₂, E.run T (Exchange.effects employee t) = some T₁ ∧
        E.run T₁ (Exchange.effects badge t') = some T₂ ∧ HoldsApart badge f T₂ := by
  intro c d f g badge employee catalog s system E T answer first second t t'
  let l : Link := ⟨"f", "employee", "employee__relation", .oneToOne, "employee", "EMPLOYEE", false,
    .own "employee" "uuid"⟩
  let m : Link := ⟨"g", "badge", "badge__relation", .oneToOne, "badge", "BADGE", false,
    .linked "employee" "uuid"⟩
  have hfirst : ((first.program s system).transcript (answer "e1")).2 = .ok () := by
    dsimp only [c, d, f, g, badge, employee, catalog, s, system, answer, first]
    rfl
  have hsecond : ((second.program s system).transcript (answer "b1")).2 = .ok () := by
    dsimp only [c, d, f, g, badge, employee, catalog, s, system, answer, second]
    rfl
  have htranscript : (first.program s system).transcript (answer "e1") = (t, .ok ()) :=
    Prod.ext rfl hfirst
  obtain ⟨hruns, hanswers⟩ := Program.Runs.iff_transcript.2 htranscript
  have htranscript' : (second.program s system).transcript (answer "b1") = (t', .ok ()) :=
    Prod.ext rfl hsecond
  obtain ⟨hruns', hanswers'⟩ := Program.Runs.iff_transcript.2 htranscript'
  have heffects : Exchange.effects employee t =
      [.update "BADGE" [setNull "employee"] [columnIs "employee" (.str "e1")],
        .update "BADGE" [setTo "employee" (.str "e1")] [columnIs "uuid" (.str "b2")]] := by
    dsimp only [t, c, d, f, g, badge, employee, catalog, s, system, answer, first]
    rfl
  have heffects' : Exchange.effects badge t' =
      [.update "BADGE" [setTo "employee" (.str "e2")] [columnIs "uuid" (.str "b1")]] := by
    dsimp only [t', c, d, f, g, badge, employee, catalog, s, system, answer, second]
    rfl
  have hends : OneToOne catalog badge employee f g c d :=
    ⟨rfl, rfl, by decide, rfl, rfl, rfl, rfl, rfl, rfl, rfl, rfl, rfl⟩
  have hl : (Link.ofField {} catalog badge f c).1 = some l := by
    dsimp only [catalog, badge, employee, f, g, c, d, l]
    rfl
  have hm : (Link.ofField {} catalog employee g d).1 = some m := by
    dsimp only [catalog, badge, employee, f, g, c, d, m]
    rfl
  have hget : (LinkMap.resolve {} catalog badge).1.get "employee" = some l := by
    dsimp only [catalog, badge, employee, f, g, c, d, l]
    rfl
  have hget' : (LinkMap.resolve {} catalog employee).1.get "badge" = some m := by
    dsimp only [catalog, badge, employee, f, g, c, d, m]
    rfl
  -- What the calls go by.
  let base : Base := ⟨employee, [("uuid", .str "e1")], .str "e1"⟩
  let base' : Base := ⟨badge, [("uuid", .str "b1")], .str "b1"⟩
  let u : Edit := ⟨base, [], changesTo m badge (.str "b2") true⟩
  let u' : Edit := ⟨base', [], changesTo l employee (.str "e2") true⟩
  have hfound : (s.lockedRow employee (.str "e1") system "employee").Within t base := by
    refine ⟨((s.lockedRow employee (.str "e1") system "employee").transcript (answer "e1")).1,
      ⟨t.take 3, t.drop (t.length - 2), ?_⟩, .of_transcript ?_⟩
    · dsimp only [t, c, d, f, g, badge, employee, catalog, s, system, answer, first]
      rfl
    · dsimp only [c, d, f, g, badge, employee, catalog, s, system, answer, base]
      rfl
  have hfound' : (s.lockedRow badge (.str "b1") system "badge").Within t' base' := by
    refine ⟨((s.lockedRow badge (.str "b1") system "badge").transcript (answer "b1")).1,
      ⟨t'.take 3, t'.drop (t'.length - 1), ?_⟩, .of_transcript ?_⟩
    · dsimp only [t', c, d, f, g, badge, employee, catalog, s, system, answer, second]
      rfl
    · dsimp only [c, d, f, g, badge, employee, catalog, s, system, answer, base']
      rfl
  have hstatements : Exchange.effects employee t = u.statements := heffects.trans rfl
  have hstatements' : Exchange.effects badge t' = u'.statements := heffects'.trans rfl
  have hu : s.Edits system catalog employee first t u :=
    ⟨.relate hget' rfl hfound, hstatements ▸ List.prefix_rfl, fun _ => hstatements⟩
  have hu' : s.Edits system catalog badge second t' u' :=
    ⟨.relate hget rfl hfound', hstatements' ▸ List.prefix_rfl, fun _ => hstatements'⟩
  obtain ⟨T₁, hT₁⟩ : ∃ T₁, E.run T (Exchange.effects employee t) = some T₁ := by
    rw [heffects]
    exact ⟨_, rfl⟩
  obtain ⟨T₂, hT₂⟩ : ∃ T₂, E.run T₁ (Exchange.effects badge t') = some T₂ := by
    rw [heffects']
    exact ⟨_, rfl⟩
  have hnobody : ∀ r ∈ T₁ "BADGE", ¬ same (r "employee") (E.value (.str "e2")) = true := by
    rw [heffects] at hT₁
    cases hT₁
    decide
  have hedit : EditsThrough E badge f m T u :=
    ⟨by simp [u], by simp [u], fun c hc hne => absurd (by rw [List.mem_singleton.1 hc]) hne⟩
  have hedit' : EditsThrough E badge f l T₁ u' :=
    ⟨by simp [u'], by simp [u'], fun c hc hne => absurd (by rw [List.mem_singleton.1 hc]) hne⟩
  have hapart : HoldsApart badge f T :=
    ⟨differ_of_two rfl (by decide), differ_of_two rfl (by decide)⟩
  have hstep : OneToOneStep {} catalog badge employee f l m T T₁ :=
    .held rfl rfl hruns (Exchange.answeredWith_of_steady hanswers).1 hT₁ (.inr ⟨u, hu, hedit⟩)
  have hstep' : OneToOneStep {} catalog badge employee f l m T₁ T₂ := by
    refine .holder rfl rfl hruns' (Exchange.answeredWith_of_steady hanswers').1 hT₂
      (.inr ⟨u', hu', hedit', fun T' hrow => ?_⟩)
    cases (hrow : some T₁ = some T')
    exact ⟨fun _ _ r hr hsame => absurd hsame (hnobody r hr), fun _ _ => trivial⟩
  obtain ⟨-, hsteps⟩ := one_to_one_holds hends hl hm
  exact ⟨hruns, hruns', T₁, T₂, hT₁, hT₂, hsteps T T₂ (.tail (.single hstep) hstep') hapart⟩

/-- A badge is given to an employee at the end of badges, and the former badge keeps it. -/
theorem one_to_one_lost :
    let c : Connection := ⟨"employee", some "g", .one, .one, true, none, none⟩
    let d : Connection := ⟨"badge", some "f", .one, .one, false, none, none⟩
    let f := Field.new "f" "employee" (.connection c)
    let g := Field.new "g" "badge" (.connection d)
    let badge := Entity.new "badge" "Badge" "BADGE" [f]
    let employee := Entity.new "employee" "Employee" "EMPLOYEE" [g]
    let catalog : Catalog := ⟨[badge, employee], [], []⟩
    let s : Session := ⟨{}, {}, .tenant⟩
    let system : Caller := ⟨none, "en", true⟩
    let E : Engine := ⟨fun _ => none, fun _ => none, fun _ _ => false⟩
    let T := Tables.ofCells [("BADGE", [[("uuid", "b1"), ("employee", "e1")], [("uuid", "b2")]]),
      ("EMPLOYEE", [[("uuid", "e1")]])]
    let call : Call := .relate "badge" (.str "b2") "employee" (.str "e1")
    let t := ((call.program s system).transcript
      (Request.steady catalog (LinkMap.ofCatalog {} catalog) fun _ => [[("uuid", .str "b2")]])).1
    OneToOne catalog badge employee f g c d ∧ (call.program s system).Runs t (.ok ()) ∧
      HoldsApart badge f T ∧ ∃ T', E.run T (Exchange.effects badge t) = some T' ∧
        ¬ HoldsApart badge f T' := by
  intro c d f g badge employee catalog s system E T call t
  have heffects : Exchange.effects badge t =
      [.update "BADGE" [setTo "employee" (.str "e1")] [columnIs "uuid" (.str "b2")]] := by
    dsimp only [t, c, d, f, g, badge, employee, catalog, s, system, call]
    rfl
  refine ⟨⟨rfl, rfl, by decide, rfl, rfl, rfl, rfl, rfl, rfl, rfl, rfl, rfl⟩, .of_transcript ?_, ?_,
    ?_⟩
  · dsimp only [c, d, f, g, badge, employee, catalog, s, system, call]
    rfl
  · exact ⟨differ_of_two rfl (by decide), differ_of_two rfl (by decide)⟩
  · rw [heffects]
    refine ⟨_, rfl, fun h => ?_⟩
    have hdiffer := (List.pairwise_cons.1 h.records).1 _ (List.mem_singleton_self _)
    exact hdiffer "e1" (by decide) ⟨rfl, rfl⟩

end CatalogQuery
