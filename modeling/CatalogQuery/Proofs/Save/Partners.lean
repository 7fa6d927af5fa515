import CatalogQuery.Proofs.Link.Mirror
import CatalogQuery.Proofs.Save.Edits
import Mathlib.Logic.Relation

/-!
# Partners

A one to one connection of an object to itself is held in one column, in which a record and its
partner name each other. Main statement: however such links are changed, partners go on naming each
other.
-/

namespace CatalogQuery

open Sql Write

/-- A one to one connection of an object to itself that is held at its own end by primary keys. -/
structure SelfPaired (catalog : Catalog) (e : Entity) (f : Field) (c : Connection) : Prop where
  object : catalog.entity? e.id = some e
  connection : f.connection? = some c
  target : c.target = e.id
  shape : c.shape = .oneToOne
  source : c.isSource = true
  index : c.index = none
  index2 : c.index2 = none

/-- Whether of each two related values either is related to the other and to nothing else. -/
structure IsPartialInvolution (R : String → String → Prop) : Prop where
  symm : ∀ a t, R a t → R t a
  unique : ∀ a t t', R a t → R a t' → t = t'

/-- The relation after `p` and `q` have left their partners and become each other's. -/
def Joined (p q : String) (R : String → String → Prop) (a t : String) : Prop :=
  a = p ∧ t = q ∨ a = q ∧ t = p ∨ (a ≠ p ∧ a ≠ q) ∧ (t ≠ p ∧ t ≠ q) ∧ R a t

/-- The relation after `p` and `q`, if it is anything, have left each other. -/
def Parted (p : String) (q : Option String) (R : String → String → Prop) (a t : String) : Prop :=
  R a t ∧ ¬ (a = p ∧ some t = q) ∧ ¬ (some a = q ∧ t = p)

namespace IsPartialInvolution

variable {R R' : String → String → Prop}

theorem congr (h : IsPartialInvolution R) (hiff : ∀ a t, R' a t ↔ R a t) :
    IsPartialInvolution R' where
  symm a t hR := (hiff t a).2 (h.symm a t ((hiff a t).1 hR))
  unique a t t' hR hR' := h.unique a t t' ((hiff a t).1 hR) ((hiff a t').1 hR')

theorem joined (h : IsPartialInvolution R) (p q : String) : IsPartialInvolution (Joined p q R) where
  symm a t := by
    rintro (⟨rfl, rfl⟩ | ⟨rfl, rfl⟩ | ⟨ha, ht, hR⟩)
    · exact .inr (.inl ⟨rfl, rfl⟩)
    · exact .inl ⟨rfl, rfl⟩
    · exact .inr (.inr ⟨ht, ha, h.symm a t hR⟩)
  unique a t t' := by
    rintro (⟨rfl, rfl⟩ | ⟨rfl, rfl⟩ | ⟨ha, ht, hR⟩) (⟨ha', rfl⟩ | ⟨ha', rfl⟩ | ⟨ha', ht', hR'⟩)
    · rfl
    · exact ha'.symm
    · exact absurd rfl ha'.1
    · exact ha'.symm
    · rfl
    · exact absurd rfl ha'.2
    · exact absurd ha' ha.1
    · exact absurd ha' ha.2
    · exact h.unique a t t' hR hR'

theorem parted (h : IsPartialInvolution R) (p : String) (q : Option String) :
    IsPartialInvolution (Parted p q R) where
  symm a t := by
    rintro ⟨hR, hfirst, hsecond⟩
    exact ⟨h.symm a t hR, fun hp => hsecond ⟨hp.2, hp.1⟩, fun hq => hfirst ⟨hq.2, hq.1⟩⟩
  unique a t t' hR hR' := h.unique a t t' hR.1 hR'.1

end IsPartialInvolution

/-! ## The column of partners -/

/-- Where partners are held. -/
def partnerPlace (e : Entity) (f : Field) : Place := ⟨e.table, e.keyColumn, f.column⟩

/-- Whether a record has a partner with a key. -/
def Partner (e : Entity) (f : Field) (T : Tables) (a t : String) : Prop :=
  (partnerPlace e f).Pairs T a t ∧ t ≠ ""

/-- Whether an object has a record with a key. -/
def IsStored (e : Entity) (T : Tables) (k : Json) : Prop :=
  ∃ r ∈ T e.table, r e.keyColumn = some k.plain

theorem IsStored.of_agree {e : Entity} {T T' : Tables} {k : Json} {columns : List String}
    (h : IsStored e T k) (hagree : T'.Agree T e.table (e.keyColumn :: columns)) :
    IsStored e T' k := by
  obtain ⟨r, hr, hkey⟩ := h
  obtain ⟨r', hr', heq⟩ := Tables.Agree.mem hagree.symm hr
  exact ⟨r', hr', (heq _ List.mem_cons_self).trans hkey⟩

/-- Partners name each other when each row that names one is named by a row of it, and rows with one
key name the same. -/
theorem isPartialInvolution_partner_iff {e : Entity} {f : Field} {T : Tables} :
    IsPartialInvolution (Partner e f T) ↔
      (∀ x ∈ T e.table, ∀ a ∈ x e.keyColumn, ∀ t ∈ x f.column, t ≠ "" →
        a ≠ "" ∧ ∃ y ∈ T e.table, y e.keyColumn = some t ∧ y f.column = some a) ∧
      ∀ x ∈ T e.table, ∀ a ∈ x e.keyColumn, ∀ y ∈ T e.table, y e.keyColumn = some a →
        ∀ t ∈ x f.column, t ≠ "" → ∀ t' ∈ y f.column, t' ≠ "" → t = t' := by
  constructor
  · intro h
    refine ⟨fun x hx a ha t ht hne => ?_, fun x hx a ha y hy hkey t ht hne t' ht' hne' => ?_⟩
    · obtain ⟨hback, ha⟩ := h.symm a t ⟨⟨x, hx, ha, ht⟩, hne⟩
      exact ⟨ha, hback⟩
    · exact h.unique a t t' ⟨⟨x, hx, ha, ht⟩, hne⟩ ⟨⟨y, hy, hkey, ht'⟩, hne'⟩
  · rintro ⟨hnamed, hunique⟩
    constructor
    · rintro a t ⟨⟨x, hx, ha, ht⟩, hne⟩
      obtain ⟨hblank, hback⟩ := hnamed x hx a ha t ht hne
      exact ⟨hback, hblank⟩
    · rintro a t t' ⟨⟨x, hx, ha, ht⟩, hne⟩ ⟨⟨y, hy, hkey, ht'⟩, hne'⟩
      exact hunique x hx a ha y hy hkey t ht hne t' ht' hne'

set_option synthInstance.maxSize 400 in
instance (e : Entity) (f : Field) (T : Tables) :
    Decidable (IsPartialInvolution (Partner e f T)) :=
  decidable_of_iff' _ isPartialInvolution_partner_iff

instance (e : Entity) (f : Field) (T : Tables) (a t : String) : Decidable (Partner e f T a t) :=
  inferInstanceAs (Decidable ((∃ x ∈ T e.table, x e.keyColumn = some a ∧ x f.column = some t) ∧
    t ≠ ""))

instance (e : Entity) (T : Tables) (k : Json) : Decidable (IsStored e T k) :=
  inferInstanceAs (Decidable (∃ r ∈ T e.table, r e.keyColumn = some k.plain))

namespace SelfPaired

variable {settings : Settings} {catalog : Catalog} {e : Entity} {f : Field} {c : Connection}
  {l : Link}

/-- The link of such a connection. -/
theorem link_eq (h : SelfPaired catalog e f c)
    (hl : (Link.ofField settings catalog e f c).1 = some l) :
    l.keys = .own f.column e.keyColumn ∧ isSelfPair e l = true := by
  have hkeys : (Link.keysOf settings e e f c).1 = some (.own f.column e.keyColumn) := by
    simp [Link.keysOf, Link.overrides, h.shape, h.source, h.index, h.index2]
  rw [Link.ofField_of_entity? (h.target ▸ h.object) hkeys] at hl
  cases hl
  exact ⟨rfl, by simp [isSelfPair, h.shape]⟩

end SelfPaired

section Pairs

variable {E : Engine} {T T' : Tables} {e : Entity} {f : Field}

/-- What is found by a test loses its partner. -/
theorem pairs_lost {tests : List Predicate} {a t : String} (lost : Prop)
    (htests : ∀ x : Stored, x e.keyColumn = some a → x f.column = some t →
      (tests.all (E.holds x) = true ↔ lost))
    (h : E.exec T (.update e.table [setNull f.column] tests) = some T') :
    (partnerPlace e f).Pairs T' a t ↔ (partnerPlace e f).Pairs T a t ∧ ¬ lost := by
  refine (pairs_setNull (p := partnerPlace e f) (.inr rfl) h).trans ?_
  constructor
  · rintro ⟨x, hx, hxpair, hfalse⟩
    refine ⟨⟨x, hx, hxpair⟩, fun hl => ?_⟩
    rw [(htests x hxpair.1 hxpair.2).2 hl] at hfalse
    cases hfalse
  · rintro ⟨⟨x, hx, hxpair⟩, hl⟩
    have hfalse : ¬ tests.all (E.holds x) = true := fun htrue =>
      hl ((htests x hxpair.1 hxpair.2).1 htrue)
    exact ⟨x, hx, hxpair, Bool.eq_false_iff.2 hfalse⟩

/-- A record gets the one partner, and no other record's partner changes. -/
theorem pairs_given {j j' : Json} (hcolumn : f.column ≠ e.keyColumn) (hj : IsKey j) (hj' : IsKey j')
    (hstored : IsStored e T j)
    (h : E.exec T (.update e.table [setTo f.column j'] [columnIs e.keyColumn j]) = some T')
    (a t : String) :
    (partnerPlace e f).Pairs T' a t ↔
      a = j.plain ∧ t = j'.plain ∨ a ≠ j.plain ∧ (partnerPlace e f).Pairs T a t := by
  refine (pairs_setKey (p := partnerPlace e f) hj' hcolumn.symm h).trans ?_
  simp only [partnerPlace, all_columnIs_eq_true hj]
  constructor
  · rintro ⟨x, hx, hxkey, hset⟩
    by_cases ha : a = j.plain
    · rw [if_pos (hxkey.trans (congrArg some ha))] at hset
      exact .inl ⟨ha, hset⟩
    · rw [if_neg (by simp [hxkey, ha])] at hset
      exact .inr ⟨ha, x, hx, hxkey, hset⟩
  · rintro (⟨rfl, rfl⟩ | ⟨ha, x, hx, hxkey, hset⟩)
    · obtain ⟨x, hx, hxkey⟩ := hstored
      exact ⟨x, hx, hxkey, by rw [if_pos hxkey]⟩
    · exact ⟨x, hx, hxkey, by rw [if_neg (by simp [hxkey, ha])]; exact hset⟩

end Pairs

section Statements

theorem all_pair_eq_true {E : Engine} {x : Stored} {p q : Predicate} :
    [p, q].all (E.holds x) = true ↔ E.holds x p = true ∧ E.holds x q = true := by
  rw [List.all_cons, List.all_cons, List.all_nil, Bool.and_true, Bool.and_eq_true]

/-- The test of a column that is not null. -/
theorem holds_columnIs_of_some {E : Engine} {x : Stored} {column s : String} {k : Json}
    (h : x column = some s) :
    E.holds x (columnIs column k) = true ↔ some s = E.value k := by
  show same (x column) (E.value k) = true ↔ _
  rw [h, same_eq_true]
  constructor
  · rintro ⟨s', hs, hk⟩
    exact hs.trans hk.symm
  · intro hk
    exact ⟨s, rfl, hk.symm⟩

variable {E : Engine} {T T' : Tables} {e : Entity} {f : Field} {l : Link} {b : Base} {k : Json}
  {keyColumn : String}
  (hkeys : l.keys = .own f.column e.keyColumn) (hpair : isSelfPair e l = true)
  (hentity : b.entity = e) (hown : b.valueOf e.keyColumn = b.key) (hbase : IsKey b.key)
include hkeys hpair hentity hown hbase

/-- Relating joins two records, whatever partners they had. -/
theorem partner_relate (hcolumn : f.column ≠ e.keyColumn) (hk : IsKey k) (hp : IsStored e T b.key)
    (hq : IsStored e T k) (h : E.run T (relate b l keyColumn k) = some T') (a t : String) :
    Partner e f T' a t ↔ Joined b.key.plain k.plain (Partner e f T) a t := by
  subst hentity
  have hspares : ∀ w ∈ relate b l keyColumn k,
      w.Spares b.entity.table [b.entity.keyColumn] := fun w hw =>
    LinkChange.spares_of_own (c := ⟨l, keyColumn, true, k⟩) hkeys (by simpa using hcolumn) hw
  simp only [relate, hkeys, hpair, if_true, hown] at h hspares
  simp only [List.forall_mem_cons] at hspares
  obtain ⟨T₁, hclear, h⟩ := Option.bind_eq_some_iff.1 h
  obtain ⟨T₂, hset, h⟩ := Option.bind_eq_some_iff.1 h
  rw [run_singleton] at h
  have hp₁ := hp.of_agree (Engine.exec_agree hspares.1 hclear)
  have hq₂ := (hq.of_agree (Engine.exec_agree hspares.1 hclear)).of_agree
    (Engine.exec_agree hspares.2.1 hset)
  have hcleared (a t : String) :
      (partnerPlace b.entity f).Pairs T₁ a t ↔ (partnerPlace b.entity f).Pairs T a t ∧
        ¬ (t = b.key.plain ∨ t = k.plain) := by
    refine pairs_lost _ (fun x _ hx => ?_) hclear
    simp [columnAmong, Engine.holds, Engine.eval, hbase.value E, hk.value E, hx, same]
  have hpairs := pairs_given hcolumn hk hbase hq₂ h
  simp only [pairs_given hcolumn hbase hk hp₁ hset, hcleared, not_or] at hpairs
  rw [Partner, hpairs, Joined, Partner]
  have hpne := hbase.plain_ne_empty
  have hkne := hk.plain_ne_empty
  constructor
  · rintro ⟨⟨rfl, rfl⟩ | ⟨hq, ⟨rfl, rfl⟩ | ⟨hp, hR, ht⟩⟩, hne⟩
    · exact .inr (.inl ⟨rfl, rfl⟩)
    · exact .inl ⟨rfl, rfl⟩
    · exact .inr (.inr ⟨⟨hp, hq⟩, ht, hR, hne⟩)
  · rintro (⟨rfl, rfl⟩ | ⟨rfl, rfl⟩ | ⟨⟨hp, hq⟩, ht, hR, hne⟩)
    · by_cases hsame : b.key.plain = k.plain
      · exact ⟨.inl ⟨hsame, hsame.symm⟩, hkne⟩
      · exact ⟨.inr ⟨hsame, .inl ⟨rfl, rfl⟩⟩, hkne⟩
    · exact ⟨.inl ⟨rfl, rfl⟩, hpne⟩
    · exact ⟨.inr ⟨hq, .inr ⟨hp, hR, ht⟩⟩, hne⟩

/-- Unrelating parts two records, if they were each other's partners. -/
theorem partner_unrelate (h : E.run T (unrelate b l keyColumn k) = some T') (a t : String) :
    Partner e f T' a t ↔ Parted b.key.plain (E.value k) (Partner e f T) a t := by
  subst hentity
  simp only [unrelate, hkeys, hpair, if_true, hown] at h
  obtain ⟨T₁, hfirst, h⟩ := Option.bind_eq_some_iff.1 h
  rw [run_singleton] at h
  rw [Partner, pairs_lost (some a = E.value k ∧ t = b.key.plain) ?_ h,
    pairs_lost (a = b.key.plain ∧ some t = E.value k) ?_ hfirst, Parted, Partner]
  · tauto
  · intro x hxkey hxlink
    rw [Base.isRow, all_pair_eq_true, hbase.holds_columnIs, holds_columnIs_of_some hxlink, hxkey,
      Option.some.injEq]
  · intro x hxkey hxlink
    rw [all_pair_eq_true, hbase.holds_columnIs, holds_columnIs_of_some hxkey, hxlink,
      Option.some.injEq]

end Statements

/-! ## What else is written -/

/-- Whether records keep their keys and partners; new records have no partner. -/
structure KeepsPartners (e : Entity) (f : Field) (T T' : Tables) : Prop where
  partner : ∀ a t, Partner e f T' a t ↔ Partner e f T a t
  stored : ∀ k, IsStored e T k → IsStored e T' k

section Keeps

variable {E : Engine} {T T' : Tables} {e : Entity} {f : Field}

theorem keepsPartners_of_exec {w : Sql.Write} (hw : w.LeavesColumn e.table [e.keyColumn] f.column)
    (h : E.exec T w = some T') : KeepsPartners e f T T' := by
  have hspared (hw : w.Spares e.table [e.keyColumn, f.column]) : KeepsPartners e f T T' :=
    have hagree := Engine.exec_agree hw h
    ⟨fun a t => and_congr_left' (Place.pairs_congr (p := partnerPlace e f) hagree),
      fun k hk => hk.of_agree hagree⟩
  cases w with
  | insert table row =>
    by_cases htable : table = e.table
    · obtain ⟨-, rfl⟩ := exec_insert h
      subst htable
      have hnew : E.assign row (fun _ => none) f.column = none :=
        Engine.assign_of_not_mem (hw rfl) _
      refine ⟨fun a t => and_congr_left' ?_, fun k ⟨r, hr, hkey⟩ => ?_⟩
      · simp [Place.Pairs, partnerPlace, or_and_right, exists_or, hnew]
      · rw [IsStored, Function.update_self]
        exact ⟨r, List.mem_append_left _ hr, hkey⟩
    · exact hspared (spares_of_table_ne htable)
  | insertPair | update | delete => exact hspared hw

theorem keepsPartners_of_run {ws : List Sql.Write}
    (hws : ∀ w ∈ ws, w.LeavesColumn e.table [e.keyColumn] f.column) (h : E.run T ws = some T') :
    KeepsPartners e f T T' := by
  induction ws generalizing T with
  | nil =>
    cases h
    exact ⟨fun _ _ => Iff.rfl, fun _ => id⟩
  | cons w rest ih =>
    rw [List.forall_mem_cons] at hws
    obtain ⟨T₁, hexec, hrun⟩ := Option.bind_eq_some_iff.1 h
    have hfirst := keepsPartners_of_exec hws.1 hexec
    have hrest := ih hws.2 hrun
    exact ⟨fun a t => (hrest.partner a t).trans (hfirst.partner a t),
      fun k hk => hrest.stored k (hfirst.stored k hk)⟩

end Keeps

/-! ## Edits of records with partners -/

/-- What is asked of the edit of a record with partners. Keys are no function calls, the record and
its new partners are there, and what else is written leaves the keys and the column of partners
alone. -/
structure EditsPartners (e : Entity) (f : Field) (l : Link) (T : Tables) (u : Edit) : Prop where
  key : IsKey u.base.key
  stored : u.IsNew ∨ IsStored e T u.base.key
  row : ∀ w ∈ u.row, w.LeavesColumn e.table [e.keyColumn] f.column
  others : ∀ c ∈ u.changes, c.link ≠ l →
    ∀ w ∈ c.statements u.base, w.LeavesColumn e.table [e.keyColumn] f.column
  wanted : ∀ c ∈ u.changes, c.link = l → c.adds = true → IsKey c.key ∧ IsStored e T c.key

section Edit

variable {E : Engine} {T T' : Tables} {e : Entity} {f : Field} {l : Link} {b : Base}
  (hkeys : l.keys = .own f.column e.keyColumn) (hpair : isSelfPair e l = true)
  (hcolumn : f.column ≠ e.keyColumn) (hentity : b.entity = e)
  (hown : b.valueOf e.keyColumn = b.key) (hbase : IsKey b.key)
include hkeys hpair hcolumn hentity hown hbase

theorem involution_of_change {c : LinkChange} (hstored : IsStored e T b.key)
    (hothers : c.link ≠ l → ∀ w ∈ c.statements b, w.LeavesColumn e.table [e.keyColumn] f.column)
    (hwanted : c.link = l → c.adds = true → IsKey c.key ∧ IsStored e T c.key)
    (hrun : E.run T (c.statements b) = some T') :
    (∀ k, IsStored e T k → IsStored e T' k) ∧
      (IsPartialInvolution (Partner e f T) → IsPartialInvolution (Partner e f T')) := by
  obtain ⟨link, keyColumn, adds, k⟩ := c
  by_cases hl : link = l
  · subst hl
    have hspares : ∀ w ∈ LinkChange.statements b ⟨link, keyColumn, adds, k⟩,
        w.Spares e.table [e.keyColumn] := by
      intro w hw
      rw [← hentity]
      exact LinkChange.spares_of_own hkeys (by simpa [hentity] using hcolumn) hw
    refine ⟨fun j hj => hj.of_agree (Engine.run_agree hspares hrun), fun h => ?_⟩
    cases adds with
    | true =>
      obtain ⟨hk, hthere⟩ := hwanted rfl rfl
      exact (h.joined _ _).congr
        (partner_relate hkeys hpair hentity hown hbase hcolumn hk hstored hthere hrun)
    | false =>
      exact (h.parted _ _).congr (partner_unrelate hkeys hpair hentity hown hbase hrun)
  · have hkeeps := keepsPartners_of_run (hothers hl) hrun
    exact ⟨hkeeps.stored, fun h => h.congr hkeeps.partner⟩

theorem involution_of_changes {changes : List LinkChange} (hstored : IsStored e T b.key)
    (hothers : ∀ c ∈ changes, c.link ≠ l →
      ∀ w ∈ c.statements b, w.LeavesColumn e.table [e.keyColumn] f.column)
    (hwanted : ∀ c ∈ changes, c.link = l → c.adds = true → IsKey c.key ∧ IsStored e T c.key)
    (hrun : E.run T (changes.flatMap (LinkChange.statements b)) = some T')
    (h : IsPartialInvolution (Partner e f T)) : IsPartialInvolution (Partner e f T') := by
  induction changes generalizing T with
  | nil =>
    cases hrun
    exact h
  | cons c rest ih =>
    rw [List.forall_mem_cons] at hothers hwanted
    rw [List.flatMap_cons, Engine.run_append] at hrun
    obtain ⟨T₁, hfirst, hrest⟩ := Option.bind_eq_some_iff.1 hrun
    obtain ⟨hkept, hinvolution⟩ := involution_of_change hkeys hpair hcolumn hentity hown hbase
      hstored hothers.1 hwanted.1 hfirst
    refine ih (hkept _ hstored) hothers.2 (fun d hd hl hadds => ?_) hrest (hinvolution h)
    obtain ⟨hk, hthere⟩ := hwanted.2 d hd hl hadds
    exact ⟨hk, hkept _ hthere⟩

end Edit

section Steps

variable {E : Engine} {settings : Settings} {catalog : Catalog} {e : Entity} {f : Field}
  {c : Connection} {l : Link} {T T' : Tables} {s : Session} {caller : Caller} {call : Call}
  {t : List Exchange} {u : Edit}

/-- Before its links are changed a record is there under its key, with the partners that it had. -/
theorem EditsPartners.of_row (h : EditsPartners e f l T u)
    (hplanned : s.Planned caller catalog e t call u) (hrow : E.run T u.row = some T') :
    KeepsPartners e f T T' ∧ IsStored e T' u.base.key := by
  have hkeeps := keepsPartners_of_run h.row hrow
  exact ⟨hkeeps, h.stored.elim (fun hnew => hplanned.stored_of_new hnew h.key hrow)
    (hkeeps.stored _)⟩

/-- One call on the records of an object with partners, of which the database refuses nothing. -/
inductive PartnerStep (settings : Settings) (catalog : Catalog) (e : Entity) (f : Field)
    (l : Link) : Tables → Tables → Prop
  | call {E : Engine} {s : Session} {caller : Caller} {call : Call} {t : List Exchange}
    {r : Result Unit} {T T' : Tables} (hsettings : s.settings = settings)
    (hcall : call.edited? = some e.id) (hruns : (call.program s caller).Runs t r)
    (hmetadata : Exchange.AnsweredWith catalog (LinkMap.ofCatalog settings catalog) t)
    (hnone : Exchange.NoneRefused t) (hrun : E.run T (Exchange.effects e t) = some T')
    (hedit : Exchange.effects e t = [] ∨
      ∃ u, s.Edits caller catalog e call t u ∧ EditsPartners e f l T u) :
    PartnerStep settings catalog e f l T T'

theorem involution_of_edit (hkeys : l.keys = .own f.column e.keyColumn)
    (hpair : isSelfPair e l = true) (hcolumn : f.column ≠ e.keyColumn)
    (hplanned : s.Planned caller catalog e t call u) (hedit : EditsPartners e f l T u)
    (hrun : E.run T u.statements = some T') (h : IsPartialInvolution (Partner e f T)) :
    IsPartialInvolution (Partner e f T') := by
  rw [Edit.statements, Engine.run_append] at hrun
  obtain ⟨T₁, hrow, hchanges⟩ := Option.bind_eq_some_iff.1 hrun
  obtain ⟨hkeeps, hstored⟩ := hedit.of_row hplanned hrow
  refine involution_of_changes hkeys hpair hcolumn hplanned.entity_eq hplanned.valueOf_key
    hedit.key hstored hedit.others (fun d hd hl hadds => ?_) hchanges (h.congr hkeeps.partner)
  obtain ⟨hk, hthere⟩ := hedit.wanted d hd hl hadds
  exact ⟨hk, hkeeps.stored _ hthere⟩

theorem involution_of_step (hkeys : l.keys = .own f.column e.keyColumn)
    (hpair : isSelfPair e l = true) (hcolumn : f.column ≠ e.keyColumn)
    (hstep : PartnerStep settings catalog e f l T T') (h : IsPartialInvolution (Partner e f T)) :
    IsPartialInvolution (Partner e f T') := by
  cases hstep with
  | call _ _ _ _ hnone hrun hedit =>
    rcases hedit with hnothing | ⟨u, hu, hedit⟩
    · rw [hnothing] at hrun
      cases hrun
      exact h
    · rw [hu.all hnone] at hrun
      exact involution_of_edit hkeys hpair hcolumn hu.planned hedit hrun h

theorem involution_of_steps (hkeys : l.keys = .own f.column e.keyColumn)
    (hpair : isSelfPair e l = true) (hcolumn : f.column ≠ e.keyColumn)
    (hsteps : Relation.ReflTransGen (PartnerStep settings catalog e f l) T T')
    (h : IsPartialInvolution (Partner e f T)) : IsPartialInvolution (Partner e f T') := by
  induction hsteps with
  | refl => exact h
  | tail _ hstep ih => exact involution_of_step hkeys hpair hcolumn hstep ih

/-- Relating a record to one other record joins the two. -/
theorem joined_of_relate {field : String} {key linked k : Json}
    (hkeys : l.keys = .own f.column e.keyColumn) (hpair : isSelfPair e l = true)
    (hcolumn : f.column ≠ e.keyColumn)
    (hget : (LinkMap.resolve s.settings catalog e).1.get field = some l)
    (hone : Json.distinct [] (Compile.linkedKeys linked e.keyColumn) = [k])
    (hplanned : s.Planned caller catalog e t (.relate e.id key field linked) u)
    (hedit : EditsPartners e f l T u) (hrun : E.run T u.statements = some T') (a b : String) :
    Partner e f T' a b ↔ Joined u.base.key.plain k.plain (Partner e f T) a b := by
  have hentity := hplanned.entity_eq
  have hown := hplanned.valueOf_key
  have hstored : E.run T u.row = some T → IsStored e T u.base.key := fun hrow =>
    (hedit.of_row hplanned hrow).2
  cases hplanned with
  | @relate _ _ _ l' target base link object found =>
    cases hget.symm.trans link
    have hchanges : changesTo l target linked true = [⟨l, e.keyColumn, true, k⟩] := by
      rw [changesTo, show l.keys.linkedColumn target = e.keyColumn by rw [hkeys]; rfl]
      rw [hone]
      rfl
    obtain ⟨hk, hthere⟩ := hedit.wanted ⟨l, e.keyColumn, true, k⟩ (by simp [hchanges]) rfl rfl
    simp only [Edit.statements, hchanges, List.flatMap_cons, List.flatMap_nil, List.nil_append,
      List.append_nil] at hrun
    exact partner_relate hkeys hpair hentity hown hedit.key hcolumn hk (hstored rfl) hthere hrun a b

end Steps

/-- A call that changes a record of the object does nothing to the database or what an edit says.
Partners go on naming each other whatever calls are made, as long as keys are no function calls, the
linked records are there and nothing else is written to the columns of keys and partners. A record
that is related to another one becomes its partner, and those that were their partners before are
left with none. -/
theorem partners_stay_mutual {settings : Settings} {catalog : Catalog} {e : Entity} {f : Field}
    {c : Connection} {l : Link} (hself : SelfPaired catalog e f c)
    (hlink : (Link.ofField settings catalog e f c).1 = some l) (hcolumn : f.column ≠ e.keyColumn) :
    (∀ (s : Session) (caller : Caller) (call : Call) (t : List Exchange) (r : Result Unit),
      s.settings = settings → call.edited? = some e.id → (call.program s caller).Runs t r →
      Exchange.AnsweredWith catalog (LinkMap.ofCatalog settings catalog) t →
      Exchange.effects e t = [] ∨ ∃ u, s.Edits caller catalog e call t u) ∧
    (∀ T T', Relation.ReflTransGen (PartnerStep settings catalog e f l) T T' →
      IsPartialInvolution (Partner e f T) → IsPartialInvolution (Partner e f T')) ∧
    ∀ (E : Engine) (s : Session) (caller : Caller) (key linked k : Json) (field : String)
      (t : List Exchange) (u : Edit) (T T' : Tables), s.settings = settings →
      (LinkMap.resolve settings catalog e).1.get field = some l →
      Json.distinct [] (Compile.linkedKeys linked e.keyColumn) = [k] →
      s.Edits caller catalog e (.relate e.id key field linked) t u → EditsPartners e f l T u →
      Exchange.NoneRefused t → E.run T (Exchange.effects e t) = some T' →
      IsPartialInvolution (Partner e f T) →
      Partner e f T' u.base.key.plain k.plain ∧ Partner e f T' k.plain u.base.key.plain ∧
      ∀ a, a ≠ u.base.key.plain → a ≠ k.plain →
        Partner e f T u.base.key.plain a ∨ Partner e f T k.plain a → ∀ b, ¬ Partner e f T' a b := by
  obtain ⟨hkeys, hpair⟩ := hself.link_eq hlink
  have hobject : catalog.entity e.id = .ok e := by rw [Catalog.entity, hself.object]
  refine ⟨?_, fun T T' => involution_of_steps hkeys hpair hcolumn, ?_⟩
  · rintro s caller call t r rfl hcall hruns hmetadata
    exact Session.exists_edit hobject hcall hmetadata hruns
  rintro E s caller key linked k field t u T T' rfl hget hone hu hedit hnone hrun hinvolution
  rw [hu.all hnone] at hrun
  have hjoined := joined_of_relate hkeys hpair hcolumn hget hone hu.planned hedit hrun
  refine ⟨(hjoined _ _).2 (.inl ⟨rfl, rfl⟩), (hjoined _ _).2 (.inr (.inl ⟨rfl, rfl⟩)), ?_⟩
  intro a hp hq hformer b hb
  rcases (hjoined a b).1 hb with ⟨rfl, -⟩ | ⟨rfl, -⟩ | ⟨-, hb, hpartner⟩
  · exact hp rfl
  · exact hq rfl
  · -- A former partner had no other partner than one of the two.
    rcases hformer with hformer | hformer
    · exact hb.1 (hinvolution.unique a _ _ hpartner (hinvolution.symm _ _ hformer))
    · exact hb.2 (hinvolution.unique a _ _ hpartner (hinvolution.symm _ _ hformer))

/-- A person who has a partner becomes the partner of a third one. -/
theorem partners_stay_mutual_third :
    let f := Field.new "f" "partner" (.connection ⟨"person", none, .one, .one, true, none, none⟩)
    let person := Entity.new "person" "Person" "PERSON" [f]
    let catalog : Catalog := ⟨[person], [], []⟩
    let s : Session := ⟨{}, {}, .tenant⟩
    let system : Caller := ⟨none, "en", true⟩
    let E : Engine := ⟨fun _ => none, fun _ => none, fun _ _ => false⟩
    let T := Tables.ofCells [("PERSON", [[("uuid", "p1"), ("partner", "p2")],
      [("uuid", "p2"), ("partner", "p1")], [("uuid", "p3")]])]
    let call : Call := .relate "person" (.str "p1") "partner" (.str "p3")
    let answer := Request.steady catalog (LinkMap.ofCatalog {} catalog) fun _ =>
      [[("partner", .str "p2"), ("uuid", .str "p1")]]
    let t := ((call.program s system).transcript answer).1
    (call.program s system).Runs t (.ok ()) ∧
      ∃ T', E.run T (Exchange.effects person t) = some T' ∧
        IsPartialInvolution (Partner person f T') ∧
        Partner person f T' "p1" "p3" ∧ Partner person f T' "p3" "p1" ∧
        ∀ b, ¬ Partner person f T' "p2" b := by
  intro f person catalog s system E T call answer t
  let l : Link := ⟨"f", "partner", "partner__relation", .oneToOne, "person", "PERSON", false,
    .own "partner" "uuid"⟩
  have hresult : ((call.program s system).transcript answer).2 = .ok () := by
    dsimp only [s, system, f, person, catalog, call, answer]
    rfl
  have htranscript : (call.program s system).transcript answer = (t, .ok ()) := Prod.ext rfl hresult
  obtain ⟨hruns, hanswers⟩ := Program.Runs.iff_transcript.2 htranscript
  obtain ⟨hmetadata, hnone⟩ := Exchange.answeredWith_of_steady hanswers
  have heffects : Exchange.effects person t =
      [.update "PERSON" [setNull "partner"] [columnAmong "partner" [.str "p1", .str "p3"]],
        .update "PERSON" [setTo "partner" (.str "p3")] [columnIs "uuid" (.str "p1")],
        .update "PERSON" [setTo "partner" (.str "p1")] [columnIs "uuid" (.str "p3")]] := by
    dsimp only [t, s, system, f, person, catalog, call, answer]
    rfl
  obtain ⟨T', hT⟩ : ∃ T', E.run T (Exchange.effects person t) = some T' := by
    rw [heffects]
    exact ⟨_, rfl⟩
  have hlink : (Link.ofField {} catalog person f ⟨"person", none, .one, .one, true, none, none⟩).1 =
      some l := by
    dsimp only [catalog, person, f, l]
    rfl
  have hget : (LinkMap.resolve {} catalog person).1.get "partner" = some l := by
    dsimp only [catalog, person, f, l]
    rfl
  -- What the call goes by.
  let base : Base := ⟨person, [("partner", .str "p2"), ("uuid", .str "p1")], .str "p1"⟩
  let u : Edit := ⟨base, [], [⟨l, "uuid", true, .str "p3"⟩]⟩
  have hfound : (s.lockedRow person (.str "p1") system "person").Within t base := by
    refine ⟨((s.lockedRow person (.str "p1") system "person").transcript answer).1,
      ⟨t.take 3, t.drop (t.length - 3), ?_⟩, .of_transcript ?_⟩
    · dsimp only [t, s, system, f, person, catalog, call, answer]
      rfl
    · dsimp only [s, system, f, person, catalog, answer, base]
      rfl
  have hstatements : Exchange.effects person t = u.statements := heffects.trans rfl
  have hu : s.Edits system catalog person call t u :=
    ⟨.relate hget rfl hfound, hstatements ▸ List.prefix_rfl, fun _ => hstatements⟩
  have hedit : EditsPartners person f l T u :=
    { key := ⟨by decide, by decide⟩
      stored := .inr (by decide)
      row := by simp [u]
      others := fun c hc hl => absurd (by rw [List.mem_singleton.1 hc]) hl
      wanted := fun c hc _ _ => by
        rw [List.mem_singleton.1 hc]
        exact ⟨⟨by decide, by decide⟩, by decide⟩ }
  have hinvolution : IsPartialInvolution (Partner person f T) := by decide
  have hself : SelfPaired catalog person f ⟨"person", none, .one, .one, true, none, none⟩ :=
    ⟨rfl, rfl, rfl, rfl, rfl, rfl, rfl⟩
  obtain ⟨-, hsteps, hrelate⟩ := partners_stay_mutual hself hlink (by decide)
  have hstep : PartnerStep {} catalog person f l T T' :=
    .call rfl rfl hruns hmetadata hnone hT (.inr ⟨u, hu, hedit⟩)
  obtain ⟨hthird, hfirst, hformer⟩ :=
    hrelate E s system (.str "p1") (.str "p3") (.str "p3") "partner" t u T T' rfl hget rfl hu hedit
      hnone hT hinvolution
  refine ⟨hruns, T', hT, hsteps T T' (.single hstep) hinvolution, hthird, hfirst, ?_⟩
  exact hformer "p2" (by decide) (by decide) (.inl (by decide))

/-- What parts partners: a key that is the text of a function call, a link that is held in the
column of keys, and another link of the same update that is held in the column of partners. -/
theorem partners_apart :
    let s : Session := ⟨{}, {}, .tenant⟩
    let system : Caller := ⟨none, "en", true⟩
    let E : Engine := ⟨fun _ => some "2024-01-01", fun _ => none, fun _ _ => false⟩
    -- The key `NOW()` is taken for the time, so no record is the partner.
    (let f := Field.new "f" "partner" (.connection ⟨"person", none, .one, .one, true, none, none⟩)
    let person := Entity.new "person" "Person" "PERSON" [f]
    let catalog : Catalog := ⟨[person], [], []⟩
    let call : Call := .relate "person" (.str "p1") "partner" (.str "NOW()")
    let t := ((call.program s system).transcript
      (Request.steady catalog (LinkMap.ofCatalog {} catalog) fun _ => [[("uuid", .str "p1")]])).1
    let T := Tables.ofCells [("PERSON", [[("uuid", "p1")], [("uuid", "NOW()")]])]
    (call.program s system).Runs t (.ok ()) ∧ IsPartialInvolution (Partner person f T) ∧
      ∃ T', E.run T (Exchange.effects person t) = some T' ∧
        ¬ IsPartialInvolution (Partner person f T') ∧ ¬ Partner person f T' "p1" "NOW()") ∧
    -- Both records lose their keys before they would become partners.
    (let f := Field.new "f" "uuid" (.connection ⟨"person", none, .one, .one, true, none, none⟩)
    let person := Entity.new "person" "Person" "PERSON" [f]
    let catalog : Catalog := ⟨[person], [], []⟩
    let call : Call := .relate "person" (.str "p1") "uuid" (.str "p2")
    let t := ((call.program s system).transcript
      (Request.steady catalog (LinkMap.ofCatalog {} catalog) fun _ => [[("uuid", .str "p1")]])).1
    let T := Tables.ofCells [("PERSON", [[("uuid", "p1")], [("uuid", "p2")]])]
    (call.program s system).Runs t (.ok ()) ∧ IsPartialInvolution (Partner person f T) ∧
      ∃ T', E.run T (Exchange.effects person t) = some T' ∧ ¬ Partner person f T' "p1" "p2") ∧
    -- The partner is kept as it is wanted, and then lets go as the record becomes another one's.
    (let partnerOf := Field.new "o" "partner_of" (.connection
      ⟨"person", some "p", .one, .one, false, none, none⟩)
    let partner := Field.new "p" "partner" (.connection
      ⟨"person", some "o", .one, .one, true, none, none⟩)
    let person := Entity.new "person" "Person" "PERSON" [partnerOf, partner]
    let catalog : Catalog := ⟨[person], [], []⟩
    let row : Row := [("partner", .str "p3"), ("uuid", .str "p1")]
    let answer := Request.steady catalog (LinkMap.ofCatalog {} catalog) fun statement =>
      if statement.limit.isSome then [row] else [[("__key", .str "p3")]]
    let values : Json := .obj [("partner", .str "p3"), ("partner_of", .str "p2")]
    let call : Call := .update "person" (.str "p1") values
    let t := ((call.program s system).transcript answer).1
    let T := Tables.ofCells [("PERSON", [[("uuid", "p1"), ("partner", "p3")], [("uuid", "p2")],
      [("uuid", "p3"), ("partner", "p1")]])]
    (call.program s system).Runs t (.ok ()) ∧ IsPartialInvolution (Partner person partner T) ∧
      ∃ T', E.run T (Exchange.effects person t) = some T' ∧
        ¬ IsPartialInvolution (Partner person partner T')) := by
  intro s system E
  refine ⟨?_, ?_, ?_⟩
  · intro f person catalog call t T
    have heffects : Exchange.effects person t =
        [.update "PERSON" [setNull "partner"] [columnAmong "partner" [.str "p1", .str "NOW()"]],
          .update "PERSON" [setTo "partner" (.str "NOW()")] [columnIs "uuid" (.str "p1")],
          .update "PERSON" [setTo "partner" (.str "p1")] [columnIs "uuid" (.str "NOW()")]] := by
      dsimp only [t, s, system, f, person, catalog, call]
      rfl
    refine ⟨.of_transcript ?_, by decide, ?_⟩
    · dsimp only [s, system, f, person, catalog, call]
      rfl
    · rw [heffects]
      exact ⟨_, rfl, by decide, by decide⟩
  · intro f person catalog call t T
    have heffects : Exchange.effects person t =
        [.update "PERSON" [setNull "uuid"] [columnAmong "uuid" [.str "p1", .str "p2"]],
          .update "PERSON" [setTo "uuid" (.str "p2")] [columnIs "uuid" (.str "p1")],
          .update "PERSON" [setTo "uuid" (.str "p1")] [columnIs "uuid" (.str "p2")]] := by
      dsimp only [t, s, system, f, person, catalog, call]
      rfl
    refine ⟨.of_transcript ?_, by decide, ?_⟩
    · dsimp only [s, system, f, person, catalog, call]
      rfl
    · rw [heffects]
      exact ⟨_, rfl, by decide⟩
  · intro partnerOf partner person catalog row answer values call t T
    have heffects : Exchange.effects person t =
        [.update "PERSON" [⟨"updated_at", .now⟩] [columnIs "uuid" (.str "p1")],
          .update "PERSON" [setNull "partner"]
            [columnIs "uuid" (.str "p3"), columnIs "partner" (.str "p1")],
          .update "PERSON" [setNull "partner"] [columnIs "partner" (.str "p1")],
          .update "PERSON" [setTo "partner" (.str "p1")] [columnIs "uuid" (.str "p2")]] := by
      dsimp only [t, s, system, partnerOf, partner, person, catalog, row, answer, values, call]
      rfl
    refine ⟨.of_transcript ?_, by decide, ?_⟩
    · dsimp only [s, system, partnerOf, partner, person, catalog, row, answer, values, call]
      rfl
    · rw [heffects]
      exact ⟨_, rfl, by decide⟩

end CatalogQuery
