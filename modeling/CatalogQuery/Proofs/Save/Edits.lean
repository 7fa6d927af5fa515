import CatalogQuery.Proofs.Save.FailStop

/-!
# What calls change

A call that creates, updates, relates or unrelates writes a statement about the row of one record
and then changes links of that record, one after another. Main statement: what such a call does to
the database is the beginning of what it was going to change, and all of it unless a write is
refused.
-/

namespace CatalogQuery

open Sql Write

/-! ## What is done -/

/-- A write as it is carried out, where the database counts up the keys of new rows. -/
def Sql.Write.numbered (e : Entity) (number : Nat) : Sql.Write → Sql.Write
  | .insert table row =>
    .insert table (match e.key with
      | .uuid => row
      | .id => row ++ [setTo e.keyColumn (Json.ofNat number)])
  | w => w

namespace Exchange

/-- The write of an exchange, if it was not refused. -/
def effect? (e : Entity) : Exchange → Option Sql.Write
  | ⟨.execute _ w, .ok number⟩ => some (w.numbered e number)
  | _ => none

/-- What a run did to the database, where `e` is the object that it creates records of. -/
def effects (e : Entity) (t : List Exchange) : List Sql.Write := t.filterMap (effect? e)

/-- Whether no write of a run was refused. -/
def NoneRefused (t : List Exchange) : Prop :=
  ∀ channel w failure, ⟨.execute channel w, .error failure⟩ ∉ t

/-- Whether a run was answered with certain metadata. -/
structure AnsweredWith (catalog : Catalog) (links : Links) (t : List Exchange) : Prop where
  catalog_eq : ∀ c : Catalog, ⟨.catalog, c⟩ ∈ t → c = catalog
  links_eq : ∀ m : Links, ⟨.links, m⟩ ∈ t → m = links

theorem effects_append (e : Entity) (t u : List Exchange) :
    effects e (t ++ u) = effects e t ++ effects e u := List.filterMap_append

/-- A run that writes nothing does nothing. -/
theorem effects_of_writes {e : Entity} {t : List Exchange} (h : writes t = []) :
    effects e t = [] := by
  refine List.filterMap_eq_nil_iff.2 fun x hx => ?_
  have hwrite := List.filterMap_eq_nil_iff.1 h x hx
  obtain ⟨request, answer⟩ := x
  cases request with
  | execute => cases hwrite
  | catalog | links | consult | notice | fetch | lock | newKey => rfl

/-- Whatever is steady answers with its metadata and refuses nothing. -/
theorem answeredWith_of_steady {catalog : Catalog} {links : Links} {rows : Sql.Select → List Row}
    {t : List Exchange} (h : ∀ x ∈ t, x.answer = Request.steady catalog links rows x.request) :
    AnsweredWith catalog links t ∧ NoneRefused t := by
  refine ⟨⟨fun c hc => h _ hc, fun m hm => h _ hm⟩, fun channel w failure hmem => ?_⟩
  have hanswer : (Except.error failure : Except DatabaseFailure Nat) = .ok 0 := h _ hmem
  cases hanswer

end Exchange

open Exchange (effects NoneRefused AnsweredWith)

/-- Whether a run of a program to a value is a part of a run. -/
def Program.Within {α : Type} (p : Program α) (t : List Exchange) (a : α) : Prop :=
  ∃ u, u <:+: t ∧ p.Runs u (.ok a)

namespace Write

/-- A link that is given to a record, or taken from it. -/
structure LinkChange where
  link : Link
  keyColumn : String
  adds : Bool
  key : Json

def LinkChange.statements (b : Base) (c : LinkChange) : List Sql.Write :=
  if c.adds then relate b c.link c.keyColumn c.key else unrelate b c.link c.keyColumn c.key

/-- What is changed of a record: its row, and then links of it. -/
structure Edit where
  base : Base
  row : List Sql.Write
  changes : List LinkChange

namespace Edit

def statements (u : Edit) : List Sql.Write :=
  u.row ++ u.changes.flatMap (LinkChange.statements u.base)

/-- Whether the record is new. -/
def IsNew (u : Edit) : Prop := ∃ table row, .insert table row ∈ u.row

end Edit

/-- The links of a new record. -/
def newChanges (links : List LinkValues) : List LinkChange :=
  links.flatMap fun v => v.keys.map (LinkChange.mk v.link v.keyColumn true)

/-- The links that differ from the wanted ones, first those that go. -/
def changesOf (pairs : List (LinkValues × List Json)) : List LinkChange :=
  pairs.flatMap fun (v, stored) =>
    (without stored v.keys).map (LinkChange.mk v.link v.keyColumn false) ++
      (without v.keys stored).map (LinkChange.mk v.link v.keyColumn true)

/-- The links to the records of one value. -/
def changesTo (l : Link) (target : Entity) (linked : Json) (adds : Bool) : List LinkChange :=
  let keyColumn := l.keys.linkedColumn target
  (Json.distinct [] (Compile.linkedKeys linked keyColumn)).map (LinkChange.mk l keyColumn adds)

end Write

/-- Whether a call changes a record of an object as an edit says, by what its run has found out. -/
inductive Session.Planned (s : Session) (caller : Caller) (catalog : Catalog) (e : Entity)
    (t : List Exchange) : Call → Edit → Prop
  | create {values : Json} {input : Json.Members} {p : Prepared} {own : List (String × Json)}
    {number : Nat} (members : inputMembers values = .ok input)
    (prepared : prepare s.settings catalog e (LinkMap.resolve s.settings catalog e).1 input true =
      .ok p) (accepted : p.errors = []) (key : (Session.ownColumns e input).Within t own) :
    Planned s caller catalog e t (.create e.id values)
      ⟨newBase e (own ++ p.columns) number,
        [(Sql.Write.insert e.table
          (assignments (own ++ p.columns) ++ newTimes s.settings)).numbered e number],
        newChanges p.links⟩
  | update {key values : Json} {input : Json.Members} {p : Prepared} {base : Base}
    {stored : List (List Json)} (members : inputMembers values = .ok input)
    (prepared : prepare s.settings catalog e (LinkMap.resolve s.settings catalog e).1 input false =
      .ok p) (accepted : p.errors = []) (found : (s.lockedRow e key caller e.id).Within t base)
    (read : (p.links.mapM (s.currentKeys base)).Within t stored) :
    Planned s caller catalog e t (.update e.id key values)
      ⟨base, Update.rowWrites ⟨catalog, (LinkMap.resolve s.settings catalog e).1, e, input, p, base,
        stored⟩ s.settings, changesOf (p.links.zip stored)⟩
  | relate {key linked : Json} {field : String} {l : Link} {target : Entity} {base : Base}
    (link : (LinkMap.resolve s.settings catalog e).1.get field = some l)
    (object : catalog.entity l.target = .ok target)
    (found : (s.lockedRow e key caller e.id).Within t base) :
    Planned s caller catalog e t (.relate e.id key field linked)
      ⟨base, [], changesTo l target linked true⟩
  | unrelate {key linked : Json} {field : String} {l : Link} {target : Entity} {base : Base}
    (link : (LinkMap.resolve s.settings catalog e).1.get field = some l)
    (object : catalog.entity l.target = .ok target)
    (found : (s.lockedRow e key caller e.id).Within t base) :
    Planned s caller catalog e t (.unrelate e.id key field linked)
      ⟨base, [], changesTo l target linked false⟩

/-- The object of which a call changes a record other than by deleting it. -/
def Call.edited? : Call → Option String
  | create entity _ | update entity _ _ | relate entity _ _ _ | unrelate entity _ _ _ => some entity
  | _ => none

/-- Whether a run of a call does what an edit says: from the first statement on, and all of it
unless a write is refused. -/
structure Session.Edits (s : Session) (caller : Caller) (catalog : Catalog) (e : Entity)
    (call : Call) (t : List Exchange) (u : Edit) : Prop where
  planned : s.Planned caller catalog e t call u
  starts : effects e t <+: u.statements
  all : NoneRefused t → effects e t = u.statements

/-! ## What is planned is done -/

/-- Whether a plan, once the database has given a number to a new row, comes to an edit. -/
def Plan.Makes {α : Type} (e : Entity) (number : Nat) (u : Edit) : Plan α → Prop
  | listed statements _ =>
    (∀ w ∈ u.row, ∀ n, w.numbered e n = w) ∧ statements = u.statements
  | numbered row others _ =>
    u.row = [row.numbered e number] ∧
      others number = u.changes.flatMap (LinkChange.statements u.base)

/-- Whether a plan writes nothing or makes one of some edits. -/
def Plan.MakesOne {α : Type} (e : Entity) (planned : Edit → Prop) (plan : Plan α) : Prop :=
  (∃ last, plan = .listed [] last) ∨ ∀ number, ∃ u, planned u ∧ plan.Makes e number u

theorem Plan.MakesOne.map {α β : Type} {e : Entity} {planned : Edit → Prop} {plan : Plan α}
    (h : plan.MakesOne e planned) (f : α → β) : (plan.map f).MakesOne e planned := by
  rcases h with ⟨last, rfl⟩ | h
  · exact .inl ⟨f <$> last, rfl⟩
  · refine .inr fun number => ?_
    obtain ⟨u, hu, hmakes⟩ := h number
    refine ⟨u, hu, ?_⟩
    cases plan <;> exact hmakes

namespace Write

theorem LinkChange.touches {b : Base} {c : LinkChange} {w : Sql.Write}
    (hw : w ∈ c.statements b) : Touches b.entity ⟨c.link, c.keyColumn, []⟩ w := by
  rw [LinkChange.statements] at hw
  split at hw
  · exact touches_relate b ⟨c.link, c.keyColumn, []⟩ c.key w hw
  · exact touches_unrelate b ⟨c.link, c.keyColumn, []⟩ c.key w hw

theorem LinkChange.numbered_eq {b : Base} {c : LinkChange} {w : Sql.Write}
    (hw : w ∈ c.statements b) (e : Entity) (number : Nat) : w.numbered e number = w := by
  have htouches := LinkChange.touches hw
  rw [Touches] at htouches
  split at htouches
  · obtain ⟨o, tests, rfl⟩ := htouches
    rfl
  · obtain ⟨o, tests, rfl⟩ := htouches
    rfl
  · obtain ⟨tests, rfl⟩ | ⟨j, k, rfl⟩ := htouches <;> rfl

theorem changesOf_statements (b : Base) (pairs : List (LinkValues × List Json)) :
    (changesOf pairs).flatMap (LinkChange.statements b) =
      pairs.flatMap fun x => relink b x.1 x.2 := by
  rw [changesOf, List.flatMap_assoc]
  refine List.flatMap_congr fun x _ => ?_
  simp only [List.flatMap_append, List.flatMap_map, relink]
  rfl

theorem newChanges_statements (b : Base) (links : List LinkValues) :
    (newChanges links).flatMap (LinkChange.statements b) =
      links.flatMap fun v => v.keys.flatMap (relate b v.link v.keyColumn) := by
  rw [newChanges, List.flatMap_assoc]
  refine List.flatMap_congr fun v _ => ?_
  rw [List.flatMap_map]
  rfl

end Write

namespace Session

variable {s : Session} {caller : Caller} {catalog : Catalog} {e : Entity} {t : List Exchange}
  {call : Call} {u : Edit} {α : Type}

theorem effects_of_executeAll {ws : List Sql.Write} (hws : ∀ w ∈ ws, ∀ n, w.numbered e n = w)
    {r : Result Unit} (h : (s.executeAll ws).Runs t r) :
    effects e t <+: ws ∧ (NoneRefused t → effects e t = ws) := by
  induction ws generalizing t r with
  | nil =>
    obtain ⟨rfl, -⟩ := h
    exact ⟨List.nil_prefix, fun _ => rfl⟩
  | cons w ws ih =>
    obtain ⟨hw, hws⟩ := List.forall_mem_cons.1 hws
    rcases Program.Runs.bind_iff.1 h with ⟨error, hfirst, -⟩ | ⟨t₁, t₂, number, rfl, hfirst, hrest⟩
    · rcases runs_execute hfirst with ⟨number, rfl, hr⟩ | ⟨failure, rfl, -⟩
      · cases hr
      · exact ⟨List.nil_prefix, fun hnone => absurd List.mem_cons_self (hnone _ _ _)⟩
    · obtain rfl := Program.Runs.execute_ok hfirst
      obtain ⟨hstart, hall⟩ := ih hws hrest
      have heffects : effects e ([⟨.execute s.channel w, .ok number⟩] ++ t₂) = w :: effects e t₂ :=
        congrArg (· :: effects e t₂) (hw number)
      rw [heffects]
      refine ⟨(List.prefix_cons_inj w).2 hstart, fun hnone => ?_⟩
      exact congrArg (w :: ·) (hall fun c w' f hmem => hnone c w' f (List.mem_append_right _ hmem))

/-- Only the end of a plan, which reads, may be missing from what is done. -/
theorem effects_of_executeAll_bind {ws : List Sql.Write} (hws : ∀ w ∈ ws, ∀ n, w.numbered e n = w)
    {last : Program α} (hlast : s.OnlyReads last) {r : Result α}
    (h : (do s.executeAll ws; last : Program α).Runs t r) :
    effects e t <+: ws ∧ (NoneRefused t → effects e t = ws) := by
  rcases Program.Runs.bind_iff.1 h with ⟨error, hall, rfl⟩ | ⟨t₁, t₂, _, rfl, hall, hrest⟩
  · exact effects_of_executeAll hws hall
  · obtain ⟨hstart, hwhole⟩ := effects_of_executeAll hws hall
    rw [Exchange.effects_append, Exchange.effects_of_writes (hlast.writes_eq_nil hrest),
      List.append_nil]
    exact ⟨hstart, fun hnone =>
      hwhole fun c w f hmem => hnone c w f (List.mem_append_left _ hmem)⟩

theorem effects_of_carryOut {plan : Plan α} (hends : plan.EndsReading s) {r : Result α}
    (h : (s.carryOut plan).Runs t r) (hmakes : plan.Makes e (Exchange.firstNumber t) u) :
    effects e t <+: u.statements ∧ (NoneRefused t → effects e t = u.statements) := by
  have hchanges : ∀ w ∈ u.changes.flatMap (LinkChange.statements u.base), ∀ n,
      w.numbered e n = w := by
    intro w hw n
    obtain ⟨c, -, hw⟩ := List.mem_flatMap.1 hw
    exact LinkChange.numbered_eq hw e n
  cases plan with
  | listed ws last =>
    obtain ⟨hrow, rfl⟩ := hmakes
    exact effects_of_executeAll_bind (List.forall_mem_append.2 ⟨hrow, hchanges⟩) hends h
  | numbered row others last =>
    obtain ⟨hrow, hothers⟩ := hmakes
    rw [Edit.statements, hrow]
    rcases Program.Runs.bind_iff.1 h with
      ⟨error, hfirst, rfl⟩ | ⟨t₁, t₂, number, rfl, hfirst, hrest⟩
    · rcases runs_execute hfirst with ⟨number, rfl, hr⟩ | ⟨failure, rfl, -⟩
      · cases hr
      · exact ⟨List.nil_prefix, fun hnone => absurd List.mem_cons_self (hnone _ _ _)⟩
    · obtain rfl := Program.Runs.execute_ok hfirst
      have hothers : others number = u.changes.flatMap (LinkChange.statements u.base) := hothers
      obtain ⟨hstart, hall⟩ :=
        effects_of_executeAll_bind (hothers ▸ hchanges) (hends number) hrest
      rw [hothers] at hstart hall
      have heffects : effects e ([⟨.execute s.channel row, .ok number⟩] ++ t₂) =
          row.numbered e number :: effects e t₂ := rfl
      rw [heffects]
      refine ⟨(List.prefix_cons_inj _).2 hstart, fun hnone => ?_⟩
      exact congrArg (_ :: ·) (hall fun c w f hmem => hnone c w f (List.mem_append_right _ hmem))

/-! ## What is planned -/

/-- An update writes at most one statement about the row. -/
theorem Update.rowWrites_eq (v : Update) (settings : Settings) :
    v.rowWrites settings = [] ∨
      ∃ row, v.rowWrites settings = [.update v.entity.table row [v.base.isRow]] := by
  rw [Update.rowWrites]
  generalize (assignments v.prepared.columns ++
    if settings.updatedAt then [⟨"updated_at", .now⟩] else []) = row
  cases row with
  | nil => exact .inl rfl
  | cons assignment row => exact .inr ⟨_, rfl⟩

theorem Update.mem_rowWrites {v : Update} {settings : Settings} {w : Sql.Write}
    (hw : w ∈ v.rowWrites settings) :
    ∃ row, w = .update v.entity.table row [v.base.isRow] := by
  rcases v.rowWrites_eq settings with hrow | ⟨row, hrow⟩ <;> rw [hrow] at hw
  · cases hw
  · exact ⟨row, List.mem_singleton.1 hw⟩

/-- A program that starts from the metadata of an object goes on with what is known of them. -/
theorem runs_of_known {f : Catalog → Entity → LinkMap → Program α} {before : List Exchange} {a : α}
    (hobject : catalog.entity e.id = .ok e)
    (hmetadata : AnsweredWith catalog (LinkMap.ofCatalog s.settings catalog) t)
    (hbefore : before <+: t)
    (h : (do
      let c ← Program.catalog
      let e' ← Program.ofResult (c.entity e.id)
      let links ← Program.linksOf e.id
      f c e' links : Program α).Runs before (.ok a)) :
    ∃ v, v <:+: t ∧ (f catalog e (LinkMap.resolve s.settings catalog e).1).Runs v (.ok a) := by
  obtain ⟨c, t₁, rfl, h₁⟩ := Program.Runs.catalog_bind_iff.1 h
  obtain ⟨e', hentity, h₂⟩ := Program.Runs.ofResult_bind_ok.1 h₁
  obtain ⟨_, t₃, map, rfl, hmap, h₃⟩ := Program.Runs.bind_ok.1 h₂
  obtain ⟨links, rfl, hlinks⟩ := Program.Runs.linksOf_iff.1 hmap
  obtain rfl := hmetadata.catalog_eq c (hbefore.subset (by simp))
  obtain rfl := hmetadata.links_eq links (hbefore.subset (by simp))
  cases hobject.symm.trans hentity
  rw [LinkMap.ofCatalog, hobject] at hlinks
  cases hlinks
  have hlast : t₃ <:+ ⟨.catalog, c⟩ :: ([⟨.links, LinkMap.ofCatalog s.settings c⟩,
      ⟨.consult e.id, ()⟩] ++ t₃) := ⟨[_, _, _], rfl⟩
  exact ⟨t₃, hlast.isInfix.trans hbefore.isInfix, h₃⟩

section Plans

variable (hobject : catalog.entity e.id = .ok e)
  (hmetadata : AnsweredWith catalog (LinkMap.ofCatalog s.settings catalog) t)
  {before : List Exchange} (hbefore : before <+: t)
include hobject hmetadata hbefore

theorem planned_of_createPlan {values : Json} {plan : Plan SaveOutcome}
    (h : (s.createPlan e.id values caller).Runs before (.ok plan)) :
    plan.MakesOne e (s.Planned caller catalog e t (.create e.id values)) := by
  obtain ⟨v, hv, h⟩ := runs_of_known hobject hmetadata hbefore h
  obtain ⟨input, hinput, h₁⟩ := Program.Runs.ofResult_bind_ok.1 h
  obtain ⟨p, hprepare, h₂⟩ := Program.Runs.ofResult_bind_ok.1 h₁
  split at h₂
  · cases h₂.2
    exact .inl ⟨_, rfl⟩
  rename_i herrors
  obtain ⟨t₃, t₄, own, rfl, hown, -, hplan⟩ := Program.Runs.bind_ok.1 h₂
  cases hplan
  refine .inr fun number => ⟨_, .create hinput hprepare (by simpa using herrors)
    ⟨t₃, ?_, hown⟩, rfl, (newChanges_statements _ _).symm⟩
  exact .trans ⟨[], t₄, by simp⟩ hv

theorem planned_of_updatePlan {key values : Json} {plan : Plan SaveOutcome}
    (h : (s.updatePlan e.id key values caller).Runs before (.ok plan)) :
    plan.MakesOne e (s.Planned caller catalog e t (.update e.id key values)) := by
  obtain ⟨v, hv, h⟩ := runs_of_known hobject hmetadata hbefore h
  obtain ⟨input, hinput, h₁⟩ := Program.Runs.ofResult_bind_ok.1 h
  obtain ⟨p, hprepare, h₂⟩ := Program.Runs.ofResult_bind_ok.1 h₁
  split at h₂
  · cases h₂.2
    exact .inl ⟨_, rfl⟩
  rename_i herrors
  obtain ⟨found, t₃, base, rfl, hfound, h₃⟩ := Program.Runs.bind_ok.1 h₂
  obtain ⟨read, t₄, stored, rfl, hread, -, hplan⟩ := Program.Runs.bind_ok.1 h₃
  cases hplan
  refine .inr fun number => ⟨_, .update hinput hprepare (by simpa using herrors)
    ⟨found, ?_, hfound⟩ ⟨read, ?_, hread⟩, ?_, ?_⟩
  · exact .trans ⟨[], read ++ t₄, by simp⟩ hv
  · exact .trans ⟨found, t₄, by simp⟩ hv
  · intro w hw n
    obtain ⟨row, rfl⟩ := Update.mem_rowWrites hw
    rfl
  · rw [Edit.statements, changesOf_statements]
    rfl

theorem planned_of_changeLinksPlan {key linked : Json} {field : String} {add : Bool}
    {plan : Plan Unit}
    (h : (s.changeLinksPlan e.id key field linked caller add).Runs before (.ok plan)) :
    plan.MakesOne e (s.Planned caller catalog e t
      (if add then .relate e.id key field linked else .unrelate e.id key field linked)) := by
  obtain ⟨v, hv, h⟩ := runs_of_known hobject hmetadata hbefore h
  split at h
  · cases (Program.Runs.ofResult_iff.1 h).2
  rename_i l hlink
  obtain ⟨target, hentity, h₁⟩ := Program.Runs.ofResult_bind_ok.1 h
  obtain ⟨found, t₂, base, rfl, hfound, -, hplan⟩ := Program.Runs.bind_ok.1 h₁
  cases hplan
  have hwithin : (s.lockedRow e key caller e.id).Within t base :=
    ⟨found, .trans ⟨[], t₂, by simp⟩ hv, hfound⟩
  have hstatements : (changesTo l target linked add).flatMap (LinkChange.statements base) =
      (Json.distinct [] (Compile.linkedKeys linked (l.keys.linkedColumn target))).flatMap
        (if add then Write.relate base l (l.keys.linkedColumn target)
          else Write.unrelate base l (l.keys.linkedColumn target)) := by
    rw [changesTo, List.flatMap_map]
    cases add <;> rfl
  cases add with
  | true =>
    exact .inr fun _ => ⟨_, .relate hlink hentity hwithin, by simp, hstatements.symm⟩
  | false =>
    exact .inr fun _ => ⟨_, .unrelate hlink hentity hwithin, by simp, hstatements.symm⟩

end Plans

/-- Whatever is planned is carried out after it was planned. -/
theorem exists_edit_of_plan {planning : Program (Plan Unit)}
    (hplanning : call.plan? s caller = some planning) {r : Result Unit}
    (h : (call.program s caller).Runs t r)
    (hplanned : ∀ before plan, before <+: t → planning.Runs before (.ok plan) →
      plan.MakesOne e (s.Planned caller catalog e t call)) :
    effects e t = [] ∨ ∃ u, s.Edits caller catalog e call t u := by
  obtain ⟨hprogram, hreads, hends⟩ := Call.program_eq_of_plan hplanning
  rw [hprogram] at h
  rcases Program.Runs.bind_iff.1 h with ⟨error, hplan, -⟩ | ⟨before, rest, plan, rfl, hplan, hrest⟩
  · exact .inl (Exchange.effects_of_writes (hreads.writes_eq_nil hplan))
  have heffects : effects e (before ++ rest) = effects e rest := by
    rw [Exchange.effects_append, Exchange.effects_of_writes (hreads.writes_eq_nil hplan),
      List.nil_append]
  have hend := hends.of_runs hplan
  rcases hplanned before plan (List.prefix_append _ _) hplan with ⟨last, rfl⟩ | hmakes
  · have hnone : ∀ w ∈ ([] : List Sql.Write), ∀ n, w.numbered e n = w := by simp
    obtain ⟨hnothing, -⟩ := effects_of_executeAll_bind hnone hend hrest
    exact .inl (heffects.trans (List.prefix_nil.1 hnothing))
  · obtain ⟨u, hu, hmakes⟩ := hmakes (Exchange.firstNumber rest)
    obtain ⟨hstart, hall⟩ := effects_of_carryOut hend hrest hmakes
    refine .inr ⟨u, hu, heffects ▸ hstart, fun hnone => heffects.trans (hall ?_)⟩
    exact fun c w f hmem => hnone c w f (List.mem_append_right _ hmem)

/-- What a call does to the database is nothing or what an edit says. -/
theorem exists_edit (hobject : catalog.entity e.id = .ok e) (hcall : call.edited? = some e.id)
    (hmetadata : AnsweredWith catalog (LinkMap.ofCatalog s.settings catalog) t) {r : Result Unit}
    (h : (call.program s caller).Runs t r) :
    effects e t = [] ∨ ∃ u, s.Edits caller catalog e call t u := by
  have hmap {planning : Program (Plan SaveOutcome)} {before : List Exchange} {plan : Plan Unit}
      {planned : Edit → Prop}
      (hplan : (Plan.map (fun _ => ()) <$> planning).Runs before (.ok plan))
      (hmakes : ∀ plan', planning.Runs before (.ok plan') → plan'.MakesOne e planned) :
      plan.MakesOne e planned := by
    obtain ⟨r', hrun, hr⟩ := Program.Runs.map_iff.1 hplan
    cases r' with
    | error error => cases hr
    | ok plan' =>
      cases hr
      exact (hmakes plan' hrun).map _
  cases call with
  | create entity values =>
    cases hcall
    exact exists_edit_of_plan rfl h fun before plan hbefore hplan =>
      hmap hplan fun _ => planned_of_createPlan hobject hmetadata hbefore
  | update entity key values =>
    cases hcall
    exact exists_edit_of_plan rfl h fun before plan hbefore hplan =>
      hmap hplan fun _ => planned_of_updatePlan hobject hmetadata hbefore
  | relate entity key field linked | unrelate entity key field linked =>
    cases hcall
    exact exists_edit_of_plan rfl h fun before plan hbefore hplan =>
      planned_of_changeLinksPlan hobject hmetadata hbefore hplan
  | find | count | delete | user | roles | scopes | scopesOf | displayNames => cases hcall

/-! ## What an edit goes by -/

theorem valueOf_key_of_lockedRow {base : Base} {key : Json} {entity : String} {v : List Exchange}
    (h : (s.lockedRow e key caller entity).Runs v (.ok base)) :
    base.valueOf e.keyColumn = base.key := by
  obtain ⟨_, _, _, -, -, h⟩ := Program.Runs.bind_ok.1 h
  obtain ⟨_, _, _, -, -, h⟩ := Program.Runs.bind_ok.1 h
  obtain ⟨_, _, row, -, -, -, hb⟩ := Program.Runs.bind_ok.1 h
  cases hb
  rw [Base.valueOf]
  cases hfind : Json.find e.keyColumn row with
  | none => rfl
  | some v => cases hv : lacksValue v <;> simp [hv, Option.filter]

theorem valueOf_key_newBase (e : Entity) (columns : List (String × Json)) (number : Nat) :
    (newBase e columns number).valueOf e.keyColumn = (newBase e columns number).key := by
  rw [Base.valueOf, newBase, Json.find_insert_self]
  exact ite_self _

theorem Planned.entity_eq (h : s.Planned caller catalog e t call u) : u.base.entity = e := by
  cases h with
  | create => rfl
  | update _ _ _ found | relate _ _ found | unrelate _ _ found =>
    obtain ⟨v, -, hv⟩ := found
    exact entity_of_lockedRow hv

/-- A record is known by its key where its links hold the primary key. -/
theorem Planned.valueOf_key (h : s.Planned caller catalog e t call u) :
    u.base.valueOf e.keyColumn = u.base.key := by
  cases h with
  | create => exact valueOf_key_newBase ..
  | update _ _ _ found | relate _ _ found | unrelate _ _ found =>
    obtain ⟨v, -, hv⟩ := found
    exact valueOf_key_of_lockedRow hv

/-- At most one statement is about the row. -/
theorem Planned.row_eq (h : s.Planned caller catalog e t call u) :
    u.row = [] ∨ ∃ w, u.row = [w] := by
  cases h with
  | create => exact .inr ⟨_, rfl⟩
  | update => exact (Update.rowWrites_eq ..).imp_right fun ⟨row, hrow⟩ => ⟨_, hrow⟩
  | relate | unrelate => exact .inl rfl

theorem Planned.keyColumn_eq (h : s.Planned caller catalog e t call u) :
    ∀ c ∈ u.changes, ∃ target, catalog.entity c.link.target = .ok target ∧
      c.keyColumn = c.link.keys.linkedColumn target := by
  cases h with
  | create _ prepared =>
    intro c hc
    obtain ⟨v, hv, hc⟩ := List.mem_flatMap.1 hc
    obtain ⟨k, -, rfl⟩ := List.mem_map.1 hc
    exact keyColumn_of_prepare prepared v hv
  | update _ prepared =>
    intro c hc
    obtain ⟨⟨v, stored⟩, hpair, hc⟩ := List.mem_flatMap.1 hc
    have hv := keyColumn_of_prepare prepared v (List.of_mem_zip hpair).1
    rcases List.mem_append.1 hc with hc | hc <;>
    · obtain ⟨k, -, rfl⟩ := List.mem_map.1 hc
      exact hv
  | relate _ object | unrelate _ object =>
    intro c hc
    obtain ⟨k, -, rfl⟩ := List.mem_map.1 hc
    exact ⟨_, object, rfl⟩

end Session

/-! ## A new record -/

theorem Json.find_foldl_insert {key : String} {members found : Json.Members}
    (h : ∀ m ∈ members, m.1 ≠ key) :
    Json.find key (members.foldl (fun ms m => Json.insert m.1 m.2 ms) found) =
      Json.find key found := by
  induction members generalizing found with
  | nil => rfl
  | cons m rest ih =>
    rw [List.forall_mem_cons] at h
    exact (ih h.2).trans (Json.find_insert_of_ne h.1.symm _ _)

section Create

variable {E : Engine} {T T' : Tables}

theorem exec_insert {table : String} {row : List Assignment}
    (h : E.exec T (.insert table row) = some T') :
    (row.map Assignment.column).Nodup ∧
      T' = Function.update T table (T table ++ [E.assign row fun _ => none]) := by
  rw [Engine.exec] at h
  split at h
  · cases h
    exact ⟨‹_›, rfl⟩
  · cases h

/-- A new record is stored under the key that its links are written with. -/
theorem Session.Planned.stored_of_new {s : Session} {caller : Caller} {catalog : Catalog}
    {e : Entity} {t : List Exchange} {call : Call} {u : Edit}
    (h : s.Planned caller catalog e t call u) (hnew : u.IsNew) (hkey : IsKey u.base.key)
    (hrun : E.run T u.row = some T') :
    ∃ r ∈ T' e.table, r e.keyColumn = some u.base.key.plain := by
  obtain ⟨table, row, hmem⟩ := hnew
  cases h with
  | @create values input p own number members prepared accepted key =>
    obtain ⟨v, -, hown⟩ := key
    have hrun : E.exec T _ = some T' := run_singleton.symm.trans hrun
    obtain ⟨hnodup, rfl⟩ := exec_insert hrun
    rw [Function.update_self]
    refine ⟨_, List.mem_append_right _ (List.mem_singleton_self _), ?_⟩
    rw [Session.ownColumns] at hown
    simp only [Session.newBase] at hkey ⊢
    cases hprimary : e.key with
    | id =>
      simp only [hprimary] at hkey ⊢
      rw [Engine.assign, List.foldl_append]
      exact (Function.update_self ..).trans (hkey.value E)
    | uuid =>
      simp only [hprimary] at hown hkey hnodup ⊢
      obtain ⟨-, -, k, -, -, -, hown⟩ := Program.Runs.bind_ok.1 hown
      cases hown
      obtain ⟨hfirst, -⟩ := List.nodup_cons.1 hnodup
      -- An insert names no column twice, so nothing else is written to that of the key.
      have hothers : ∀ a ∈ assignments p.columns ++ newTimes s.settings,
          a.column ≠ e.keyColumn := by
        intro a ha heq
        have hcolumn := List.mem_map_of_mem (f := Assignment.column) ha
        rw [heq] at hcolumn
        exact hfirst hcolumn
      have hfind : Json.find e.keyColumn (rowOf ([(e.keyColumn, k)] ++ p.columns)) = some k := by
        show Json.find e.keyColumn (p.columns.foldl _ (Json.insert e.keyColumn k [])) = some k
        refine (Json.find_foldl_insert fun m hm => ?_).trans (Json.find_insert_self ..)
        exact hothers (setTo m.1 m.2) (List.mem_append_left _ (List.mem_map_of_mem hm))
      rw [hfind] at hkey ⊢
      refine (Engine.assign_of_not_mem hothers _).trans ?_
      exact (Function.update_self ..).trans (hkey.value E)
  | update =>
    obtain ⟨row', hw⟩ := Session.Update.mem_rowWrites hmem
    cases hw
  | relate | unrelate => cases hmem

end Create

/-! ## Columns that hold links -/

/-- Whether a write leaves alone what the rows of a table have in a column, in which a new row has
nothing, and in some others, which a new row may fill. -/
def Sql.Write.LeavesColumn (table : String) (others : List String) (column : String) :
    Sql.Write → Prop
  | .insert t row => t = table → ∀ a ∈ row, a.column ≠ column
  | w => w.Spares table (others ++ [column])

/-- Links are given and taken without new rows of objects. -/
theorem Write.LinkChange.spares_of_leaves {b : Base} {c : LinkChange} {w : Sql.Write}
    (hw : w ∈ c.statements b) {table column : String} {others : List String}
    (h : w.LeavesColumn table others column) : w.Spares table (others ++ [column]) := by
  have htouches := LinkChange.touches hw
  rw [Touches] at htouches
  split at htouches
  · obtain ⟨o, tests, rfl⟩ := htouches
    exact h
  · obtain ⟨o, tests, rfl⟩ := htouches
    exact h
  · obtain ⟨tests, rfl⟩ | ⟨j, k, rfl⟩ := htouches <;> exact h

theorem Write.LinkChange.spares_of_own {b : Base} {c : LinkChange} {foreign target : String}
    (hkeys : c.link.keys = .own foreign target) {columns : List String}
    (hcolumns : foreign ∉ columns)
    {w : Sql.Write} (hw : w ∈ c.statements b) : w.Spares b.entity.table columns := by
  have htouches := LinkChange.touches hw
  simp only [Touches, hkeys] at htouches
  obtain ⟨o, tests, rfl⟩ := htouches
  exact fun _ => List.forall_mem_singleton.2 hcolumns

end CatalogQuery
