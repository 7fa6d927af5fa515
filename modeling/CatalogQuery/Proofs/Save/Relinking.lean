import CatalogQuery.Proofs.Save.Places

/-!
# What relinking does

Main statements: unrelating takes one pair away and relating adds one, whatever holds the link, and
relinking leaves a row with exactly the wanted keys.
-/

namespace CatalogQuery.Write

open Sql

/-! ## When nothing is written -/

theorem relate_ne_nil (b : Base) (l : Link) (keyColumn : String) (k : Json) :
    relate b l keyColumn k ≠ [] := by
  rw [relate]
  cases l.keys with
  | own =>
    dsimp only
    split <;> simp
  | linked | junction => simp

theorem unrelate_ne_nil (b : Base) (l : Link) (keyColumn : String) (k : Json) :
    unrelate b l keyColumn k ≠ [] := by
  rw [unrelate]
  cases l.keys with
  | own =>
    dsimp only
    split <;> simp
  | linked | junction => simp

theorem without_eq_nil_iff {keys others : List Json} :
    without keys others = [] ↔
      ∀ text, text ∈ keys.map Json.plain → text ∈ others.map Json.plain := by
  rw [without, List.filter_eq_nil_iff]
  simp only [Bool.not_eq_true', Bool.not_eq_false, List.contains_iff_mem, List.forall_mem_map]

/-- Nothing is written where the wanted keys are, as text, the ones that were read. -/
theorem relink_eq_nil_iff {b : Base} {v : LinkValues} {stored : List Json} :
    relink b v stored = [] ↔
      ∀ text, text ∈ v.keys.map Json.plain ↔ text ∈ stored.map Json.plain := by
  have hnone {keys : List Json} {statements : Json → List Sql.Write}
      (hsome : ∀ k, statements k ≠ []) : keys.flatMap statements = [] ↔ keys = [] := by
    rw [List.flatMap_eq_nil_iff, List.eq_nil_iff_forall_not_mem]
    exact forall_congr' fun k => imp_congr_right fun _ => iff_false_intro (hsome k)
  rw [relink, List.append_eq_nil_iff, hnone (unrelate_ne_nil b v.link v.keyColumn),
    hnone (relate_ne_nil b v.link v.keyColumn), without_eq_nil_iff, without_eq_nil_iff,
    ← forall_and]
  exact forall_congr' fun text => ⟨fun h => ⟨h.2, h.1⟩, fun h => ⟨h.2, h.1⟩⟩

/-! ## What relinking goes by -/

/-- Whether a link is held in columns by which no record is found. -/
def Apart (e : Entity) (v : LinkValues) : Prop :=
  match v.link.keys with
  | .own foreign target =>
    foreign ≠ e.keyColumn ∧ (isSelfPair e v.link = true → foreign ≠ target)
  | .linked foreign source =>
    foreign ≠ v.keyColumn ∧
      (v.link.targetTable = e.table → foreign ≠ e.keyColumn ∧ foreign ≠ source)
  | .junction table sourceColumn targetColumn _ _ =>
    table = e.table → sourceColumn ≠ e.keyColumn ∧ targetColumn ≠ e.keyColumn

/-- The columns by which the rows are found that hold a link; a junction has rows of its own. -/
def foundBy (e : Entity) (v : LinkValues) : List String :=
  match v.link.keys with
  | .own _ target => if isSelfPair e v.link then [e.keyColumn, target] else [e.keyColumn]
  | .linked _ _ => [v.keyColumn]
  | .junction _ _ _ _ _ => []

/-- Whether the rows are there that links are written in: the record itself, known by the value that
its partner gets, or the wanted records. -/
def Ready (T : Tables) (b : Base) (v : LinkValues) : Prop :=
  match v.link.keys with
  | .own _ target =>
    (∃ r ∈ T b.entity.table, r b.entity.keyColumn = some b.key.plain) ∧
      (isSelfPair b.entity v.link = true → ∀ r ∈ T b.entity.table,
        r b.entity.keyColumn = some b.key.plain →
        storedValue b.entity target r = some (b.valueOf target).plain)
  | .linked _ _ => ∀ k ∈ v.keys, ∃ x ∈ T v.link.targetTable, x v.keyColumn = some k.plain
  | .junction _ _ _ _ _ => True

theorem storedValue_congr {e : Entity} {column : String} {r r' : Stored}
    (hkey : r' e.keyColumn = r e.keyColumn) (hcolumn : r' column = r column) :
    storedValue e column r' = storedValue e column r := by
  rw [storedValue, storedValue, hkey, hcolumn]

theorem storedValue_of_some {e : Entity} {column t : String} {r : Stored} (h : r column = some t)
    (ht : t ≠ "") : storedValue e column r = some t := by
  rw [storedValue, h]
  split
  · simp_all
  · simp_all
  · simp_all

/-- Nothing else matters for it. -/
theorem Ready.of_agree {T T' : Tables} {b : Base} {v : LinkValues} (h : Ready T b v)
    (hagree : T'.Agree T (placeOf b.entity v).table (foundBy b.entity v)) : Ready T' b v := by
  rw [Ready] at h ⊢
  rw [placeOf, foundBy] at hagree
  cases hkeys : v.link.keys with
  | own foreign target =>
    rw [hkeys] at h hagree
    dsimp only at h hagree ⊢
    obtain ⟨⟨r, hr, hrow⟩, hself⟩ := h
    refine ⟨?_, fun hpair r' hr' hrow' => ?_⟩
    · obtain ⟨r', hr', heq⟩ := Tables.Agree.mem hagree.symm hr
      exact ⟨r', hr', (heq _ (by split <;> simp)).trans hrow⟩
    · rw [if_pos hpair] at hagree
      obtain ⟨r, hr, heq⟩ := hagree.mem hr'
      have hkey := heq b.entity.keyColumn (by simp)
      rw [← hself hpair r hr (hkey.trans hrow')]
      exact (storedValue_congr hkey (heq target (by simp))).symm
  | linked foreign source =>
    rw [hkeys] at h hagree
    intro k hk
    obtain ⟨x, hx, hkey⟩ := h k hk
    obtain ⟨x', hx', heq⟩ := Tables.Agree.mem hagree.symm hx
    exact ⟨x', hx', (heq _ (by simp)).trans hkey⟩
  | junction => trivial

/-- Whether a write sets only the column that holds a link, or takes rows from the junction or adds
some of its two columns. -/
def Touches (e : Entity) (v : LinkValues) (w : Sql.Write) : Prop :=
  match v.link.keys with
  | .own foreign _ => ∃ o tests, w = .update e.table [⟨foreign, o⟩] tests
  | .linked foreign _ => ∃ o tests, w = .update v.link.targetTable [⟨foreign, o⟩] tests
  | .junction table sourceColumn targetColumn _ _ =>
    (∃ tests, w = .delete table tests) ∨
      ∃ j k, w = .insertPair table (setTo sourceColumn j) (setTo targetColumn k)

theorem touches_unrelate (b : Base) (v : LinkValues) (k : Json) :
    ∀ w ∈ unrelate b v.link v.keyColumn k, Touches b.entity v w := by
  intro w hw
  rw [unrelate] at hw
  rw [Touches]
  cases hkeys : v.link.keys with
  | own foreign target =>
    simp only [hkeys] at hw
    split at hw
    · simp only [List.mem_cons, List.not_mem_nil, or_false] at hw
      rcases hw with rfl | rfl <;> exact ⟨_, _, rfl⟩
    · rw [List.mem_singleton] at hw
      exact ⟨_, _, hw⟩
  | linked foreign source =>
    simp only [hkeys, List.mem_singleton] at hw
    exact ⟨_, _, hw⟩
  | junction =>
    simp only [hkeys, List.mem_singleton] at hw
    exact .inl ⟨_, hw⟩

theorem touches_relate (b : Base) (v : LinkValues) (k : Json) :
    ∀ w ∈ relate b v.link v.keyColumn k, Touches b.entity v w := by
  intro w hw
  rw [relate] at hw
  rw [Touches]
  cases hkeys : v.link.keys with
  | own foreign target =>
    simp only [hkeys] at hw
    split at hw
    · simp only [List.mem_cons, List.not_mem_nil, or_false] at hw
      rcases hw with rfl | rfl | rfl <;> exact ⟨_, _, rfl⟩
    · rw [List.mem_singleton] at hw
      exact ⟨_, _, hw⟩
  | linked foreign source =>
    simp only [hkeys] at hw
    split at hw
    · simp only [List.cons_append, List.nil_append, List.mem_cons, List.not_mem_nil, or_false] at hw
      rcases hw with rfl | rfl <;> exact ⟨_, _, rfl⟩
    · simp only [List.nil_append, List.mem_singleton] at hw
      exact ⟨_, _, hw⟩
  | junction =>
    simp only [hkeys, List.mem_singleton] at hw
    exact .inr ⟨_, _, hw⟩

theorem touches_relink (b : Base) (v : LinkValues) (stored : List Json) :
    ∀ w ∈ relink b v stored, Touches b.entity v w := by
  intro w hw
  rcases List.mem_append.1 hw with hw | hw
  · obtain ⟨k, -, hw⟩ := List.mem_flatMap.1 hw
    exact touches_unrelate b v k w hw
  · obtain ⟨k, -, hw⟩ := List.mem_flatMap.1 hw
    exact touches_relate b v k w hw

/-- The columns by which rows are found stay when only the link changes. -/
theorem agree_of_touches {E : Engine} {T T' : Tables} {e : Entity} {v : LinkValues}
    {ws : List Sql.Write} (hheld : ∀ table c d source target,
      v.link.keys ≠ .junction table c d source target) (hapart : Apart e v)
    (hws : ∀ w ∈ ws, Touches e v w) (hrun : E.run T ws = some T') :
    T'.Agree T (placeOf e v).table (foundBy e v) := by
  refine Engine.run_agree (fun w hw => ?_) hrun
  have hw := hws w hw
  cases hkeys : v.link.keys with
  | own foreign target =>
    simp only [Touches, hkeys] at hw
    obtain ⟨o, tests, rfl⟩ := hw
    simp only [Apart, hkeys] at hapart
    simp only [foundBy, hkeys, Sql.Write.Spares, List.mem_singleton, forall_eq]
    intro _
    split
    · rename_i hpair
      simpa using ⟨hapart.1, hapart.2 hpair⟩
    · simpa using hapart.1
  | linked foreign source =>
    simp only [Touches, hkeys] at hw
    obtain ⟨o, tests, rfl⟩ := hw
    simp only [Apart, hkeys] at hapart
    simp only [foundBy, hkeys, Sql.Write.Spares, List.mem_singleton, forall_eq]
    exact fun _ => hapart.1
  | junction table c d source target => exact absurd hkeys (hheld table c d source target)

theorem Ready.of_touches {E : Engine} {T T' : Tables} {b : Base} {v : LinkValues}
    {ws : List Sql.Write} (h : Ready T b v) (hapart : Apart b.entity v)
    (hws : ∀ w ∈ ws, Touches b.entity v w) (hrun : E.run T ws = some T') : Ready T' b v := by
  cases hkeys : v.link.keys with
  | junction =>
    rw [Ready, hkeys]
    trivial
  | own | linked => exact h.of_agree (agree_of_touches (by simp [hkeys]) hapart hws hrun)

/-! ## One link less -/

/-- Whether a value has lost the link to one key, and no value has gained any. -/
structure Place.Loses (p : Place) (T T' : Tables) (base key : String) : Prop where
  own : ∀ t, p.Pairs T' base t ↔ p.Pairs T base t ∧ t ≠ key
  other : ∀ a, a ≠ base → ∀ t, p.Pairs T' a t → p.Pairs T a t

section Steps

variable {E : Engine} {T T' : Tables} {b : Base} {v : LinkValues} {k : Json}

theorem Place.loses_of_removed {p : Place} {base key : String}
    (h : ∀ a t, p.Pairs T' a t ↔ ∃ x ∈ T p.table, (x p.base = some a ∧ x p.key = some t) ∧
      ¬ (x p.base = some base ∧ x p.key = some key)) : p.Loses T T' base key where
  own t := by
    rw [h]
    constructor
    · rintro ⟨x, hx, hpair, hnot⟩
      refine ⟨⟨x, hx, hpair⟩, ?_⟩
      rintro rfl
      exact hnot hpair
    · rintro ⟨⟨x, hx, hpair⟩, hne⟩
      refine ⟨x, hx, hpair, fun hremoved => hne ?_⟩
      exact Option.some.inj (hpair.2.symm.trans hremoved.2)
  other a _ t hpair := by
    obtain ⟨x, hx, hpair, -⟩ := (h a t).1 hpair
    exact ⟨x, hx, hpair⟩

theorem all_columnIs_eq_false {j : Json} (hj : IsKey j) (hk : IsKey k) {c d : String}
    {x : Stored} : [columnIs c j, columnIs d k].all (E.holds x) = false ↔
      ¬ (x c = some j.plain ∧ x d = some k.plain) := by
  rw [← Bool.not_eq_true, List.all_cons, List.all_cons, List.all_nil, Bool.and_true,
    Bool.and_eq_true, hj.holds_columnIs, hk.holds_columnIs]

theorem run_singleton {w : Sql.Write} : E.run T [w] = E.exec T w := by
  simp [Engine.run]

/-- A record whose partner is let go is not let go as its own partner's. -/
theorem Place.Loses.keep {p : Place} {base key : String} {T₁ : Tables}
    (h : p.Loses T T₁ base key) {removed : Stored → Prop}
    (hpairs : ∀ a t, p.Pairs T' a t ↔
      ∃ x ∈ T₁ p.table, (x p.base = some a ∧ x p.key = some t) ∧ ¬ removed x)
    (hkeep : ∀ x ∈ T₁ p.table, ∀ t, x p.base = some base → x p.key = some t → removed x → t = key) :
    p.Loses T T' base key where
  own t := by
    rw [hpairs, ← h.own]
    constructor
    · rintro ⟨x, hx, hpair, -⟩
      exact ⟨x, hx, hpair⟩
    · rintro ⟨x, hx, hpair⟩
      refine ⟨x, hx, hpair, fun hremoved => ?_⟩
      exact ((h.own t).1 ⟨x, hx, hpair⟩).2 (hkeep x hx t hpair.1 hpair.2 hremoved)
  other a ha t hpair := by
    obtain ⟨x, hx, hpair, -⟩ := (hpairs a t).1 hpair
    exact h.other a ha t ⟨x, hx, hpair⟩

theorem unrelate_loses (hapart : Apart b.entity v) (hready : Ready T b v)
    (hbase : IsKey (b.linking v.link))
    (hself : ∀ foreign target, v.link.keys = .own foreign target →
      isSelfPair b.entity v.link = true → IsKey (b.valueOf target))
    (hk : IsKey k) (h : E.run T (unrelate b v.link v.keyColumn k) = some T') :
    (placeOf b.entity v).Loses T T' (b.linking v.link).plain k.plain := by
  have htouches := touches_unrelate b v k
  cases hkeys : v.link.keys with
  | own foreign target =>
    simp only [Base.linking, hkeys] at hbase ⊢
    simp only [unrelate, hkeys, Base.isRow] at h htouches
    simp only [placeOf, hkeys]
    have hfirst {T₁ : Tables} (h : E.exec T (.update b.entity.table [setNull foreign]
        [columnIs b.entity.keyColumn b.key, columnIs foreign k]) = some T₁) :
        Place.Loses ⟨b.entity.table, b.entity.keyColumn, foreign⟩ T T₁ b.key.plain k.plain := by
      refine Place.loses_of_removed fun a t => (pairs_setNull (.inr rfl) h).trans ?_
      simp only [all_columnIs_eq_false hbase hk]
    split at h
    · rename_i hpair
      rw [if_pos hpair] at htouches
      have hown := hself foreign target hkeys hpair
      obtain ⟨T₁, hexec, hrun⟩ := Option.bind_eq_some_iff.1 h
      rw [run_singleton] at hrun
      have hrun₁ : E.run T [_] = some T₁ := run_singleton.trans hexec
      have hready₁ := hready.of_touches hapart
        (List.forall_mem_singleton.2 (htouches _ List.mem_cons_self)) hrun₁
      simp only [Ready, hkeys] at hready₁
      have hpairs (a t : String) := pairs_setNull (a := a) (t := t)
        (p := ⟨b.entity.table, b.entity.keyColumn, foreign⟩) (.inr rfl) hrun
      simp only [all_columnIs_eq_false hk hown] at hpairs
      -- The second statement takes nothing else from the row than its pair with itself.
      refine (hfirst hexec).keep hpairs ?_
      rintro x hx t hrow hforeign ⟨htarget, hforeign'⟩
      have hvalue := hready₁.2 hpair x hx hrow
      rw [storedValue_of_some htarget hk.plain_ne_empty] at hvalue
      exact Option.some.inj ((hforeign.symm.trans hforeign').trans hvalue.symm)
    · rw [run_singleton] at h
      exact hfirst h
  | linked foreign source =>
    simp only [Base.linking, hkeys] at hbase ⊢
    simp only [unrelate, hkeys] at h
    simp only [placeOf, hkeys]
    rw [run_singleton] at h
    refine Place.loses_of_removed fun a t => (pairs_setNull (.inl rfl) h).trans ?_
    simp only [all_columnIs_eq_false hk hbase, and_comm]
  | junction table sourceColumn targetColumn source target =>
    simp only [Base.linking, hkeys] at hbase ⊢
    simp only [unrelate, hkeys] at h
    simp only [placeOf, hkeys]
    rw [run_singleton] at h
    refine Place.loses_of_removed fun a t => (pairs_delete h).trans ?_
    simp only [all_columnIs_eq_false hbase hk]

/-! ## One link more -/

/-- Whether a row is linked to one record at most through a place. -/
def Alone (v : LinkValues) : Prop :=
  match v.link.keys with
  | .own _ _ => True
  | .linked _ _ => v.link.shape = .oneToOne
  | .junction _ _ _ _ _ => False

/-- Whether a record is the partner that a one to one link within one object gives a row, with the
value that the partner is linked to. -/
def IsPartner (T : Tables) (b : Base) (v : LinkValues) (key a t : String) : Prop :=
  match v.link.keys with
  | .own _ target =>
    isSelfPair b.entity v.link = true ∧ t = (b.valueOf target).plain ∧
      ∃ x ∈ T b.entity.table, x b.entity.keyColumn = some a ∧ x target = some key
  | _ => False

/-- Whether a value has gained the link to one key, in place of all others if it can have only one,
and no other value has gained any, but for a partner. -/
structure Place.Gains (p : Place) (T T' : Tables) (base key : String) (alone : Prop)
    (partner : String → String → Prop) : Prop where
  own : ∀ t, p.Pairs T' base t ↔ t = key ∨ ¬ alone ∧ p.Pairs T base t
  other : ∀ a, a ≠ base → ∀ t, p.Pairs T' a t → p.Pairs T a t ∨ partner a t

theorem all_columnIs_eq_true (hk : IsKey k) {c : String} {x : Stored} :
    [columnIs c k].all (E.holds x) = true ↔ x c = some k.plain := by
  rw [List.all_cons, List.all_nil, Bool.and_true, hk.holds_columnIs]

theorem all_columnIs_eq_false_singleton (hk : IsKey k) {c : String} {x : Stored} :
    [columnIs c k].all (E.holds x) = false ↔ ¬ x c = some k.plain := by
  rw [← Bool.not_eq_true, all_columnIs_eq_true hk]

theorem relate_own_gains {foreign target : String} (hkeys : v.link.keys = .own foreign target)
    (hapart : foreign ≠ b.entity.keyColumn) (hready : Ready T b v) (hbase : IsKey b.key)
    (hk : IsKey k) {partner : String → String → Prop}
    (h : E.exec T (.update b.entity.table [setTo foreign k] [b.isRow]) = some T') :
    (placeOf b.entity v).Gains T T' b.key.plain k.plain True partner := by
  simp only [Ready, hkeys] at hready
  simp only [placeOf, hkeys]
  have hpairs (a t : String) := pairs_setKey (a := a) (t := t)
    (p := ⟨b.entity.table, b.entity.keyColumn, foreign⟩) hk hapart.symm h
  simp only [Base.isRow, all_columnIs_eq_true hbase] at hpairs
  constructor
  · intro t
    rw [hpairs, or_iff_left (by simp)]
    constructor
    · rintro ⟨x, -, hrow, hset⟩
      rwa [if_pos hrow] at hset
    · rintro rfl
      obtain ⟨x, hx, hrow⟩ := hready.1
      exact ⟨x, hx, hrow, by rw [if_pos hrow]⟩
  · intro a ha t hpair
    obtain ⟨x, hx, hrow, hset⟩ := (hpairs a t).1 hpair
    rw [if_neg (by simp [hrow, ha])] at hset
    exact .inl ⟨x, hx, hrow, hset⟩

/-- Of a one to one link within one object both records lose their partners before they become each
other's. -/
theorem relate_pair_gains {foreign target : String} (hkeys : v.link.keys = .own foreign target)
    (hpair : isSelfPair b.entity v.link = true) (hapart : Apart b.entity v) (hready : Ready T b v)
    (hbase : IsKey b.key) (hown : IsKey (b.valueOf target)) (hk : IsKey k)
    (h : E.run T (relate b v.link v.keyColumn k) = some T') :
    (placeOf b.entity v).Gains T T' b.key.plain k.plain True (IsPartner T b v k.plain) := by
  have htouches := touches_relate b v k
  have hne : foreign ≠ b.entity.keyColumn := by
    simp only [Apart, hkeys] at hapart
    exact hapart.1
  have hplace : placeOf b.entity v = ⟨b.entity.table, b.entity.keyColumn, foreign⟩ := by
    simp only [placeOf, hkeys]
  simp only [relate, hkeys, hpair, if_true] at h htouches
  obtain ⟨T₁, hclear, h⟩ := Option.bind_eq_some_iff.1 h
  obtain ⟨T₂, hset, h⟩ := Option.bind_eq_some_iff.1 h
  rw [run_singleton] at h
  -- What records are found by is the same all the time.
  have hrun₁ : E.run T [_] = some T₁ := run_singleton.trans hclear
  have hready₁ := hready.of_touches hapart
    (List.forall_mem_singleton.2 (htouches _ List.mem_cons_self)) hrun₁
  have hrun₂ : E.run T [_, _] = some T₂ :=
    Option.bind_eq_some_iff.2 ⟨T₁, hclear, run_singleton.trans hset⟩
  have htouches₂ := List.forall_mem_cons.2 ⟨htouches _ List.mem_cons_self,
    List.forall_mem_singleton.2 (htouches _ (List.mem_cons_of_mem _ List.mem_cons_self))⟩
  have hagree := agree_of_touches (by simp [hkeys]) hapart htouches₂ hrun₂
  have hready₂ := hready.of_touches hapart htouches₂ hrun₂
  have hgains : (placeOf b.entity v).Gains T₁ T₂ b.key.plain k.plain True fun _ _ => False :=
    relate_own_gains hkeys hne hready₁ hbase hk hset
  rw [hplace] at hgains ⊢
  have hpairs (a t : String) := pairs_setKey (a := a) (t := t)
    (p := ⟨b.entity.table, b.entity.keyColumn, foreign⟩) hown hne.symm h
  simp only [all_columnIs_eq_true hk] at hpairs
  simp only [Ready, hkeys] at hready₂
  constructor
  · intro t
    rw [hpairs, or_iff_left (by simp)]
    -- A record that is its own partner is given itself twice.
    have hsame {x : Stored} (hx : x ∈ T₂ b.entity.table)
        (hrow : x b.entity.keyColumn = some b.key.plain) (htarget : x target = some k.plain) :
        (b.valueOf target).plain = k.plain := by
      have hvalue := hready₂.2 hpair x hx hrow
      rw [storedValue_of_some htarget hk.plain_ne_empty] at hvalue
      exact (Option.some.inj hvalue).symm
    constructor
    · rintro ⟨x, hx, hrow, hset⟩
      split at hset
      · rename_i htarget
        rw [hset, hsame hx hrow htarget]
      · simpa using (hgains.own t).1 ⟨x, hx, hrow, hset⟩
    · rintro rfl
      obtain ⟨x, hx, hrow, hforeign⟩ := (hgains.own k.plain).2 (.inl rfl)
      refine ⟨x, hx, hrow, ?_⟩
      split
      · rename_i htarget
        exact (hsame hx hrow htarget).symm
      · exact hforeign
  · intro a ha t hpair'
    obtain ⟨x, hx, hrow, hset⟩ := (hpairs a t).1 hpair'
    split at hset
    · rename_i htarget
      right
      simp only [foundBy, hkeys, hpair, if_true, hplace] at hagree
      obtain ⟨y, hy, heq⟩ := hagree.mem hx
      simp only [IsPartner, hkeys]
      exact ⟨hpair, hset, y, hy, (heq _ (by simp)).trans hrow, (heq _ (by simp)).trans htarget⟩
    · left
      obtain ⟨y, hy, hy', -⟩ := (pairs_setNull (p := ⟨b.entity.table, b.entity.keyColumn, foreign⟩)
        (.inr rfl) hclear).1 ((hgains.other a ha t ⟨x, hx, hrow, hset⟩).resolve_right id)
      exact ⟨y, hy, hy'⟩

theorem relate_linked_gains {foreign source : String}
    (hkeys : v.link.keys = .linked foreign source) (hne : foreign ≠ v.keyColumn)
    (hready : ∃ x ∈ T v.link.targetTable, x v.keyColumn = some k.plain)
    (hbase : IsKey (b.valueOf source)) (hk : IsKey k) {partner : String → String → Prop}
    (h : E.exec T (.update v.link.targetTable [setTo foreign (b.valueOf source)]
      [columnIs v.keyColumn k]) = some T') :
    (placeOf b.entity v).Gains T T' (b.valueOf source).plain k.plain False partner := by
  simp only [placeOf, hkeys]
  have hpairs (a t : String) := pairs_setBase (a := a) (t := t)
    (p := ⟨v.link.targetTable, foreign, v.keyColumn⟩) hbase hne h
  simp only [all_columnIs_eq_true hk] at hpairs
  constructor
  · intro t
    rw [hpairs]
    constructor
    · rintro ⟨x, hx, hkey, hset⟩
      split at hset
      · rename_i htarget
        exact .inl (Option.some.inj (hkey.symm.trans htarget))
      · exact .inr ⟨id, x, hx, hset, hkey⟩
    · rintro (rfl | ⟨-, x, hx, hforeign, hkey⟩)
      · obtain ⟨x, hx, hkey⟩ := hready
        exact ⟨x, hx, hkey, by rw [if_pos hkey]⟩
      · refine ⟨x, hx, hkey, ?_⟩
        split
        · rfl
        · exact hforeign
  · intro a ha t hpair
    obtain ⟨x, hx, hkey, hset⟩ := (hpairs a t).1 hpair
    split at hset
    · exact absurd hset ha
    · exact .inl ⟨x, hx, hset, hkey⟩

theorem relate_gains (hapart : Apart b.entity v) (hready : Ready T b v)
    (hbase : IsKey (b.linking v.link))
    (hself : ∀ foreign target, v.link.keys = .own foreign target →
      isSelfPair b.entity v.link = true → IsKey (b.valueOf target))
    (hk : IsKey k) (hmem : k ∈ v.keys)
    (h : E.run T (relate b v.link v.keyColumn k) = some T') :
    (placeOf b.entity v).Gains T T' (b.linking v.link).plain k.plain (Alone v)
      (IsPartner T b v k.plain) := by
  cases hkeys : v.link.keys with
  | own foreign target =>
    simp only [Alone, hkeys]
    simp only [Base.linking, hkeys] at hbase ⊢
    by_cases hpair : isSelfPair b.entity v.link = true
    · exact relate_pair_gains hkeys hpair hapart hready hbase (hself foreign target hkeys hpair) hk h
    · simp only [relate, hkeys, if_neg hpair, run_singleton] at h
      simp only [Apart, hkeys] at hapart
      exact relate_own_gains hkeys hapart.1 hready hbase hk h
  | linked foreign source =>
    have hready' := hready
    simp only [Ready, hkeys] at hready'
    simp only [Alone, hkeys]
    simp only [Base.linking, hkeys] at hbase ⊢
    have hne : foreign ≠ v.keyColumn := by
      simp only [Apart, hkeys] at hapart
      exact hapart.1
    simp only [relate, hkeys] at h
    split at h
    · -- A one to one link holds one record, so what it held is let go of first.
      rename_i hshape
      rw [List.cons_append, List.nil_append] at h
      obtain ⟨T₁, hclear, h⟩ := Option.bind_eq_some_iff.1 h
      rw [run_singleton] at h
      have hcleared (a t : String) := pairs_setNull (a := a) (t := t)
        (p := ⟨v.link.targetTable, foreign, v.keyColumn⟩) (.inl rfl) hclear
      have htouches : ∀ w ∈ [Sql.Write.update v.link.targetTable [setNull foreign]
          [columnIs foreign (b.valueOf source)]], Touches b.entity v w := by
        simp only [List.forall_mem_singleton, Touches, hkeys]
        exact ⟨_, _, rfl⟩
      have hready₁ := hready.of_touches hapart htouches (run_singleton.trans hclear)
      simp only [Ready, hkeys] at hready₁
      have hgains : (placeOf b.entity v).Gains T₁ T' (b.valueOf source).plain k.plain False
          (IsPartner T b v k.plain) := relate_linked_gains hkeys hne (hready₁ k hmem) hbase hk h
      simp only [placeOf, hkeys] at hgains ⊢
      simp only [all_columnIs_eq_false_singleton hbase] at hcleared
      refine ⟨fun t => ?_, fun a ha t hpair => ?_⟩
      · rw [hgains.own t, or_iff_left, or_iff_left]
        · exact fun hnot => hnot.1 (by simpa using hshape)
        · rintro ⟨-, hpair⟩
          obtain ⟨x, -, hx, hnot⟩ := (hcleared _ _).1 hpair
          exact hnot hx.1
      · refine (hgains.other a ha t hpair).imp_left fun hpair => ?_
        obtain ⟨x, hx, hpair, -⟩ := (hcleared a t).1 hpair
        exact ⟨x, hx, hpair⟩
    · rename_i hshape
      simp only [List.nil_append, run_singleton] at h
      rw [eq_false (by simpa using hshape : ¬ v.link.shape = .oneToOne)]
      exact relate_linked_gains hkeys hne (hready' k hmem) hbase hk h
  | junction table sourceColumn targetColumn source target =>
    simp only [Alone, hkeys]
    simp only [Base.linking, hkeys] at hbase ⊢
    simp only [relate, hkeys] at h
    simp only [placeOf, hkeys]
    rw [run_singleton] at h
    have hpairs (a t : String) := pairs_insertPair (a := a) (t := t)
      (p := ⟨table, sourceColumn, targetColumn⟩) hbase hk h
    exact ⟨fun t => by rw [hpairs, or_comm]; simp, fun a ha t hpair =>
      .inl (((hpairs a t).1 hpair).resolve_right fun hnew => ha hnew.1)⟩

/-! ## All the links of a row -/

/-- A partner is known by what relinking goes by. -/
theorem IsPartner.of_agree {T₁ : Tables} {key a t : String} (h : IsPartner T₁ b v key a t)
    (hagree : T₁.Agree T (placeOf b.entity v).table (foundBy b.entity v)) :
    IsPartner T b v key a t := by
  cases hkeys : v.link.keys with
  | own foreign target =>
    simp only [IsPartner, hkeys] at h ⊢
    obtain ⟨hpair, ht, x, hx, hrow, htarget⟩ := h
    simp only [foundBy, placeOf, hkeys, hpair, if_true] at hagree
    obtain ⟨y, hy, heq⟩ := hagree.mem hx
    exact ⟨hpair, ht, y, hy, (heq _ (by simp)).trans hrow, (heq _ (by simp)).trans htarget⟩
  | linked | junction => simp only [IsPartner, hkeys] at h

theorem IsPartner.of_touches {T₁ : Tables} {ws : List Sql.Write} {key a t : String}
    (h : IsPartner T₁ b v key a t) (hapart : Apart b.entity v)
    (hws : ∀ w ∈ ws, Touches b.entity v w) (hrun : E.run T ws = some T₁) :
    IsPartner T b v key a t := by
  cases hkeys : v.link.keys with
  | own => exact h.of_agree (agree_of_touches (by simp [hkeys]) hapart hws hrun)
  | linked | junction => simp only [IsPartner, hkeys] at h

variable (hapart : Apart b.entity v) (hbase : IsKey (b.linking v.link))
  (hself : ∀ foreign target, v.link.keys = .own foreign target →
    isSelfPair b.entity v.link = true → IsKey (b.valueOf target))
include hapart hbase hself

/-- A value loses the keys that are taken away from it, and no value gains any. -/
theorem unrelates_lose {ks : List Json} (hready : Ready T b v) (hks : ∀ k ∈ ks, IsKey k)
    (h : E.run T (ks.flatMap (unrelate b v.link v.keyColumn)) = some T') :
    (∀ t, (placeOf b.entity v).Pairs T' (b.linking v.link).plain t ↔
      (placeOf b.entity v).Pairs T (b.linking v.link).plain t ∧ t ∉ ks.map Json.plain) ∧
    ∀ a, a ≠ (b.linking v.link).plain → ∀ t,
      (placeOf b.entity v).Pairs T' a t → (placeOf b.entity v).Pairs T a t := by
  induction ks generalizing T with
  | nil =>
    cases h
    simp
  | cons k rest ih =>
    rw [List.forall_mem_cons] at hks
    rw [List.flatMap_cons, Engine.run_append] at h
    obtain ⟨T₁, hfirst, hrest⟩ := Option.bind_eq_some_iff.1 h
    have hloses := unrelate_loses hapart hready hbase hself hks.1 hfirst
    have hready₁ := hready.of_touches hapart (touches_unrelate b v k) hfirst
    obtain ⟨hown, hother⟩ := ih hready₁ hks.2 hrest
    refine ⟨fun t => ?_, fun a ha t hpair => hloses.other a ha t (hother a ha t hpair)⟩
    rw [hown, hloses.own, List.map_cons, List.mem_cons, not_or, and_assoc]

/-- A value gains the keys that are given to it, in place of the one that it had if it can have only
one, and no other value gains any, but for a partner. -/
theorem relates_gain {ks : List Json} (hready : Ready T b v) (hks : ∀ k ∈ ks, IsKey k)
    (hmem : ∀ k ∈ ks, k ∈ v.keys) (halone : Alone v → ks.length ≤ 1)
    (h : E.run T (ks.flatMap (relate b v.link v.keyColumn)) = some T') :
    (∀ t, (placeOf b.entity v).Pairs T' (b.linking v.link).plain t ↔ t ∈ ks.map Json.plain ∨
      (Alone v → ks = []) ∧ (placeOf b.entity v).Pairs T (b.linking v.link).plain t) ∧
    ∀ a, a ≠ (b.linking v.link).plain → ∀ t, (placeOf b.entity v).Pairs T' a t →
      (placeOf b.entity v).Pairs T a t ∨ ∃ k ∈ ks, IsPartner T b v k.plain a t := by
  induction ks generalizing T with
  | nil =>
    cases h
    simp
  | cons k rest ih =>
    rw [List.forall_mem_cons] at hks hmem
    rw [List.flatMap_cons, Engine.run_append] at h
    obtain ⟨T₁, hfirst, hrest⟩ := Option.bind_eq_some_iff.1 h
    have hgains := relate_gains hapart hready hbase hself hks.1 hmem.1 hfirst
    have hready₁ := hready.of_touches hapart (touches_relate b v k) hfirst
    have hlast : Alone v → rest = [] := fun ha =>
      List.length_eq_zero_iff.1 (Nat.le_zero.1 (Nat.le_of_succ_le_succ (halone ha)))
    obtain ⟨hown, hother⟩ := ih hready₁ hks.2 hmem.2 (fun ha => by simp [hlast ha]) hrest
    constructor
    · intro t
      rw [hown, hgains.own, List.map_cons, List.mem_cons]
      constructor
      · rintro (ht | ⟨-, rfl | ⟨hmany, hpair⟩⟩)
        · exact .inl (.inr ht)
        · exact .inl (.inl rfl)
        · exact .inr ⟨fun ha => absurd ha hmany, hpair⟩
      · rintro ((rfl | ht) | ⟨hmany, hpair⟩)
        · exact .inr ⟨hlast, .inl rfl⟩
        · exact .inl ht
        · exact .inr ⟨hlast, .inr ⟨fun ha => List.cons_ne_nil _ _ (hmany ha), hpair⟩⟩
    · intro a ha t hpair
      rcases hother a ha t hpair with hpair | ⟨j, hj, hpartner⟩
      · refine (hgains.other a ha t hpair).imp_right fun hpartner => ?_
        exact ⟨k, List.mem_cons_self, hpartner⟩
      · exact .inr ⟨j, List.mem_cons_of_mem _ hj,
          hpartner.of_touches hapart (touches_relate b v k) hfirst⟩

omit hapart hbase hself in
theorem eq_of_mem_of_length_le_one {ks : List Json} {j : Json} (h : ks.length ≤ 1) (hk : k ∈ ks)
    (hj : j ∈ ks) : k = j := by
  match ks, h with
  | [l], _ => rw [List.mem_singleton.1 hk, List.mem_singleton.1 hj]

omit hapart hbase hself in
theorem mem_map_without {ks others : List Json} {t : String} :
    t ∈ (without ks others).map Json.plain ↔
      t ∈ ks.map Json.plain ∧ t ∉ others.map Json.plain := by
  simp only [without, List.mem_map, List.mem_filter, Bool.not_eq_true', List.contains_eq_mem,
    decide_eq_false_iff_not]
  constructor
  · rintro ⟨k, ⟨hk, hnot⟩, rfl⟩
    exact ⟨⟨k, hk, rfl⟩, hnot⟩
  · rintro ⟨⟨k, hk, rfl⟩, hnot⟩
    exact ⟨k, ⟨hk, hnot⟩, rfl⟩

omit hapart hbase hself in
/-- What a value gains, with what it keeps where it may, are the wanted keys. -/
theorem mem_wanted_iff {stored : List Json} {t : String} (halone : Alone v → v.keys.length ≤ 1) :
    (t ∈ (without v.keys stored).map Json.plain ∨ (Alone v → without v.keys stored = []) ∧
      t ∈ stored.map Json.plain ∧ t ∉ (without stored v.keys).map Json.plain) ↔
    t ∈ v.keys.map Json.plain := by
  rw [mem_map_without, mem_map_without]
  constructor
  · rintro (⟨hwant, -⟩ | ⟨-, hhas, hnot⟩)
    · exact hwant
    · by_contra hunwanted
      exact hnot ⟨hhas, hunwanted⟩
  · intro hwant
    by_cases hhas : t ∈ stored.map Json.plain
    · -- Where there is room for one key only, the wanted one is there already.
      refine .inr ⟨fun ha => ?_, hhas, fun hnot => hnot.2 hwant⟩
      refine List.filter_eq_nil_iff.2 fun k hk => ?_
      obtain ⟨j, hj, rfl⟩ := List.mem_map.1 hwant
      rw [eq_of_mem_of_length_le_one (halone ha) hk hj]
      simpa using hhas
    · exact .inl ⟨hwant, hhas⟩

/-- Relinking a value from the keys that it has leaves it with the wanted keys, and no other value
gains any, but for a partner. -/
theorem relink_pairs {stored : List Json} (hready : Ready T b v) (hstored : ∀ k ∈ stored, IsKey k)
    (hwanted : ∀ k ∈ v.keys, IsKey k) (halone : Alone v → v.keys.length ≤ 1)
    (hcurrent : ∀ t, t ≠ "" → ((placeOf b.entity v).Pairs T (b.linking v.link).plain t ↔
      t ∈ stored.map Json.plain))
    (h : E.run T (relink b v stored) = some T') :
    (∀ t, t ≠ "" → ((placeOf b.entity v).Pairs T' (b.linking v.link).plain t ↔
      t ∈ v.keys.map Json.plain)) ∧
    ∀ a, a ≠ (b.linking v.link).plain → ∀ t, (placeOf b.entity v).Pairs T' a t →
      (placeOf b.entity v).Pairs T a t ∨ ∃ k ∈ v.keys, IsPartner T b v k.plain a t := by
  have hof {ks others : List Json} : ∀ k ∈ without ks others, k ∈ ks :=
    fun k hk => List.mem_of_mem_filter hk
  rw [relink, Engine.run_append] at h
  obtain ⟨T₁, hun, hre⟩ := Option.bind_eq_some_iff.1 h
  have htouches : ∀ w ∈ (without stored v.keys).flatMap (unrelate b v.link v.keyColumn),
      Touches b.entity v w := fun w hw => touches_relink b v stored w (List.mem_append_left _ hw)
  obtain ⟨hown, hother⟩ := unrelates_lose hapart hbase hself hready
    (fun k hk => hstored k (hof k hk)) hun
  obtain ⟨hown', hother'⟩ := relates_gain hapart hbase hself
    (hready.of_touches hapart htouches hun) (fun k hk => hwanted k (hof k hk)) hof
    (fun ha => Nat.le_trans (List.length_filter_le _ _) (halone ha)) hre
  constructor
  · intro t ht
    rw [hown', hown, hcurrent t ht]
    exact mem_wanted_iff halone
  · intro a ha t hpair
    rcases hother' a ha t hpair with hpair | ⟨k, hk, hpartner⟩
    · exact .inl (hother a ha t hpair)
    · exact .inr ⟨k, hof k hk, hpartner.of_touches hapart htouches hun⟩

end Steps

end CatalogQuery.Write
