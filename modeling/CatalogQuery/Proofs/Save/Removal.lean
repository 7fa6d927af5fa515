import CatalogQuery.Proofs.Link.Mirror
import CatalogQuery.Proofs.Save.Edits

/-!
# What a delete leaves behind

A delete takes its record out of the junctions that its object's own links go through, each by the
column that holds the object's side. Main statement: in which columns nothing is left of the record,
whatever other objects have linked to it.
-/

namespace CatalogQuery

open Sql Write

/-! ## Rows that are erased -/

/-- The rows of a table that have a value in a column, as they are to be removed. -/
structure Sql.Erasure where
  table : String
  column : String
  value : Json

namespace Sql.Erasure

def write (x : Erasure) : Sql.Write := .delete x.table [columnIs x.column x.value]

/-- Whether a row of a table is removed. -/
def takes (E : Engine) (x : Erasure) (table : String) (r : Stored) : Bool :=
  x.table == table && same (r x.column) (E.value x.value)

end Sql.Erasure

/-- Whether writes leave no row with a text in a column, whatever the tables held before. -/
def Sql.Engine.Clears (E : Engine) (ws : List Sql.Write) (table column text : String) : Prop :=
  ∀ T, ∃ T', E.run T ws = some T' ∧ ∀ r ∈ T' table, r column ≠ some text

section Erasures

variable {E : Engine} {T : Tables} {xs : List Erasure} {table column text : String}

theorem exec_erasure (x : Erasure) :
    E.exec T x.write = some fun table => (T table).filter fun r => !x.takes E table r := by
  refine congrArg some (funext fun table => ?_)
  by_cases htable : table = x.table
  · subst htable
    rw [Function.update_self]
    refine List.filter_congr fun r _ => ?_
    simp [Erasure.takes, columnIs, Engine.holds, Engine.eval]
  · rw [Function.update_of_ne htable]
    refine (List.filter_eq_self.2 fun r _ => ?_).symm
    simp [Erasure.takes, Ne.symm htable]

/-- What is left are the rows that nothing takes. -/
theorem run_erasures : E.run T (xs.map Erasure.write) =
    some fun table => (T table).filter fun r => xs.all fun x => !x.takes E table r := by
  induction xs generalizing T with
  | nil => simp [Engine.run]
  | cons x rest ih =>
    rw [List.map_cons, Engine.run, exec_erasure, Option.bind_some, ih]
    simp [List.filter_filter, Bool.and_comm]

/-- A column is cleared of a text only by removing the rows that have it there. -/
theorem clears_erasures_iff : E.Clears (xs.map Erasure.write) table column text ↔
    ∃ x ∈ xs, x.table = table ∧ x.column = column ∧ E.value x.value = some text := by
  constructor
  · intro h
    -- A row that has nothing but the text goes only with something that looks for it.
    let r : Stored := Function.update (fun _ => none) column (some text)
    have hcell : r column = some text := Function.update_self ..
    obtain ⟨T', hrun, hcleared⟩ := h fun _ => [r]
    rw [run_erasures, Option.some.injEq] at hrun
    subst hrun
    have htaken : ∃ x ∈ xs, x.takes E table r = true := by
      by_contra hnone
      refine hcleared r (List.mem_filter.2 ⟨List.mem_singleton_self r, ?_⟩) hcell
      simpa using hnone
    obtain ⟨x, hx, htakes⟩ := htaken
    rw [Erasure.takes, Bool.and_eq_true, beq_iff_eq] at htakes
    obtain ⟨htable, hsame⟩ := htakes
    obtain ⟨a, ha, hvalue⟩ := same_eq_true.1 hsame
    have hcolumn : x.column = column := by
      by_contra hne
      have hempty : r x.column = none := Function.update_of_ne hne ..
      rw [hempty] at ha
      cases ha
    rw [hcolumn, hcell] at ha
    exact ⟨x, hx, htable, hcolumn, hvalue.trans ha.symm⟩
  · rintro ⟨x, hx, rfl, rfl, hvalue⟩ T
    refine ⟨_, run_erasures, fun r hr hcell => ?_⟩
    have hkept := List.all_eq_true.1 (List.mem_filter.1 hr).2 x hx
    simp [Erasure.takes, same, hcell, hvalue] at hkept

end Erasures

/-! ## What a delete erases -/

/-- The side of a junction that stands for an object: a column of the junction, and the column of
the object whose value it has. -/
structure JunctionSide where
  table : String
  column : String
  source : String

namespace LinkKeys

/-- The side of the junction that stands for the object that has the link. -/
def side? : LinkKeys → Option JunctionSide
  | junction table sourceColumn _ source _ => some ⟨table, sourceColumn, source⟩
  | own _ _ | linked _ _ => none

/-- The side of the junction that stands for the linked object. -/
def farSide? (k : LinkKeys) : Option JunctionSide := k.mirror.side?

end LinkKeys

namespace Write

/-- The rows of a junction that have a row on a side of it. -/
def Base.rowsAt (b : Base) (x : JunctionSide) : Erasure := ⟨x.table, x.column, b.valueOf x.source⟩

/-- What is removed with a row. -/
def erased (b : Base) (links : LinkMap) : List Erasure :=
  links.links.filterMap (fun l => l.keys.side?.map b.rowsAt) ++
    [⟨b.entity.table, b.entity.keyColumn, b.key⟩]

theorem map_write_erased (b : Base) (links : LinkMap) :
    (erased b links).map Erasure.write =
      leaveJunctions b links ++ [.delete b.entity.table [b.isRow]] := by
  rw [erased, List.map_append, List.map_filterMap, leaveJunctions]
  refine congrArg (· ++ _) (List.filterMap_congr fun l _ => ?_)
  cases l.keys <;> rfl

/-- Whether nothing is left of a row on a side of a junction after some writes. -/
def Base.ClearedBy (b : Base) (E : Engine) (ws : List Sql.Write) (x : JunctionSide) : Prop :=
  ∀ text, E.value (b.valueOf x.source) = some text → E.Clears ws x.table x.column text

/-- A side of a junction is left through a link that stands there for the object by the same value,
or else with the row itself. -/
theorem clearedBy_erased_iff {E : Engine} {b : Base} {links : LinkMap} {x : JunctionSide}
    (hx : E.value (b.valueOf x.source) ≠ none) :
    b.ClearedBy E ((erased b links).map Erasure.write) x ↔
      (∃ l ∈ links.links, ∃ y, l.keys.side? = some y ∧ y.table = x.table ∧ y.column = x.column ∧
        E.value (b.valueOf y.source) = E.value (b.valueOf x.source)) ∨
      b.entity.table = x.table ∧ b.entity.keyColumn = x.column ∧
        E.value b.key = E.value (b.valueOf x.source) := by
  obtain ⟨text, hx⟩ := Option.ne_none_iff_exists'.1 hx
  have hcleared : b.ClearedBy E ((erased b links).map Erasure.write) x ↔
      ∃ y ∈ erased b links, y.table = x.table ∧ y.column = x.column ∧
        E.value y.value = some text := by
    rw [← clears_erasures_iff, Base.ClearedBy, hx]
    simp
  rw [hcleared, hx, erased]
  simp only [List.mem_append, List.mem_filterMap, List.mem_singleton, Option.map_eq_some_iff]
  constructor
  · rintro ⟨_, ⟨l, hl, y, hy, rfl⟩ | rfl, hfits⟩
    · exact .inl ⟨l, hl, y, hy, hfits⟩
    · exact .inr hfits
  · rintro (⟨l, hl, y, hy, hfits⟩ | hfits)
    · exact ⟨_, .inl ⟨l, hl, y, hy, rfl⟩, hfits⟩
    · exact ⟨_, .inr rfl, hfits⟩

theorem clearedBy_erased_of_side {E : Engine} {b : Base} {links : LinkMap} {l : Link}
    (hl : l ∈ links.links) {x : JunctionSide} (hx : l.keys.side? = some x) :
    b.ClearedBy E ((erased b links).map Erasure.write) x := by
  intro text htext
  refine (clearedBy_erased_iff ?_).2 (.inl ⟨l, hl, x, hx, rfl, rfl, rfl⟩) text htext
  simp [htext]

end Write

namespace Session

variable {s : Session} {caller : Caller} {catalog : Catalog} {e : Entity} {t : List Exchange}

/-- A delete that succeeds has written what there was to remove with the row that it found. -/
theorem writes_of_delete (hobject : catalog.entity e.id = .ok e)
    (hmetadata : Exchange.AnsweredWith catalog (LinkMap.ofCatalog s.settings catalog) t)
    {key : Json} (h : (s.delete e.id key caller).Runs t (.ok ())) :
    ∃ b, (s.lockedRow e key caller e.id).Within t b ∧ b.entity = e ∧
      Exchange.writes t =
        (erased b (LinkMap.resolve s.settings catalog e).1).map Erasure.write := by
  have hreads := s.onlyReads_deletePlan e.id key caller
  rw [delete_eq] at h
  obtain ⟨before, rest, plan, rfl, hplan, hrest⟩ := Program.Runs.bind_ok.1 h
  obtain ⟨v, hv, hknown⟩ := runs_of_known hobject hmetadata (List.prefix_append _ _) hplan
  obtain ⟨found, t₂, b, rfl, hfound, -, hlisted⟩ := Program.Runs.bind_ok.1 hknown
  cases hlisted
  have hentity : b.entity = e := entity_of_lockedRow hfound
  refine ⟨b, ⟨found, .trans ⟨[], t₂, by simp⟩ hv, hfound⟩, hentity, ?_⟩
  obtain ⟨sent, last, _, rfl, hsent, hlast⟩ := Program.Runs.bind_ok.1 hrest
  obtain ⟨rfl, -⟩ := hlast
  rw [Exchange.writes_append, hreads.writes_eq_nil hplan, List.nil_append, List.append_nil,
    writes_of_executeAll hsent, map_write_erased, hentity]

end Session

/-- An object has a link on the far side of that of a field that describes one connection with a
field of its own. -/
theorem Opposite.exists_side {settings : Settings} {catalog : Catalog} {e o : Entity} {f g : Field}
    {c d : Connection} (h : Opposite e o f g c d) (he : catalog.entity? e.id = some e)
    (ho : catalog.entity? o.id = some o) {m : Link}
    (hm : (Link.ofField settings catalog o g d).1 = some m) {x : JunctionSide}
    (hx : m.keys.farSide? = some x) :
    ∃ l ∈ (LinkMap.resolve settings catalog e).1.links, l.keys.side? = some x := by
  obtain ⟨keys, hkeys, hkeys'⟩ := Link.keysOf_swap settings h
  have hlink := Link.ofField_of_entity? (h.target ▸ ho) hkeys
  obtain ⟨target, htarget, -, -, -, hfound⟩ := Link.exists_of_ofField hm
  rw [h.target', he, Option.some.injEq] at htarget
  subst htarget
  rw [hkeys', Option.some.injEq] at hfound
  rw [LinkKeys.farSide?, ← hfound, LinkKeys.mirror_mirror] at hx
  exact ⟨_, LinkMap.mem_resolve.2 ⟨f, h.mem, c, h.connection, hlink⟩, hx⟩

/-- A delete that succeeds leaves nothing of its record in the junctions of its object's own links,
on the side that stands there for the object, nor in those of a field of another object that leads
back with a field of its own. On any other side of a junction, whatever field it is there for, the
record is left behind: nothing is removed but by a link of the object itself that goes through the
same column by the same value, or with the row. -/
theorem Session.delete_clears_sides {s : Session} {caller : Caller} {catalog : Catalog} {e : Entity}
    {t : List Exchange} {key : Json} (hobject : catalog.entity? e.id = some e)
    (hmetadata : Exchange.AnsweredWith catalog (LinkMap.ofCatalog s.settings catalog) t)
    (hruns : (s.delete e.id key caller).Runs t (.ok ())) (E : Engine) :
    let links := (LinkMap.resolve s.settings catalog e).1.links
    let ws := Exchange.writes t
    ∃ b, (s.lockedRow e key caller e.id).Within t b ∧
      (∀ l ∈ links, ∀ x, l.keys.side? = some x → b.ClearedBy E ws x) ∧
      (∀ o f g c d m x, catalog.entity? o.id = some o → Opposite e o f g c d →
        (Link.ofField s.settings catalog o g d).1 = some m → m.keys.farSide? = some x →
        b.ClearedBy E ws x) ∧
      ∀ x : JunctionSide, E.value (b.valueOf x.source) ≠ none → (b.ClearedBy E ws x ↔
        (∃ l ∈ links, ∃ y, l.keys.side? = some y ∧ y.table = x.table ∧ y.column = x.column ∧
          E.value (b.valueOf y.source) = E.value (b.valueOf x.source)) ∨
        e.table = x.table ∧ e.keyColumn = x.column ∧
          E.value b.key = E.value (b.valueOf x.source)) := by
  intro links ws
  have hentity : catalog.entity e.id = .ok e := by rw [Catalog.entity, hobject]
  obtain ⟨b, hfound, rfl, hwrites⟩ := writes_of_delete hentity hmetadata hruns
  have hown (l : Link) (hl : l ∈ links) (x : JunctionSide) (hx : l.keys.side? = some x) :
      b.ClearedBy E ws x := by
    rw [show ws = _ from hwrites]
    exact clearedBy_erased_of_side hl hx
  refine ⟨b, hfound, hown, fun o f g c d m x ho hopposite hm hx => ?_, fun x hx => ?_⟩
  · obtain ⟨l, hl, hside⟩ := hopposite.exists_side hobject ho hm hx
    exact hown l hl x hside
  · rw [show ws = _ from hwrites]
    exact clearedBy_erased_iff hx

/-- A tag that leads back to its notes is deleted, and no note has it any more. -/
theorem Session.delete_clears_sides_tag :
    let tags : Connection := ⟨"tag", some "g", .many, .many, true, none, none⟩
    let notes : Connection := ⟨"note", some "f", .many, .many, false, none, none⟩
    let f := Field.new "f" "tags" (.connection tags)
    let g := Field.new "g" "notes" (.connection notes)
    let note := Entity.new "note" "Note" "NOTE" [f]
    let tag := Entity.new "tag" "Tag" "TAG" [g]
    let catalog : Catalog := ⟨[note, tag], [], []⟩
    let s : Session := ⟨{}, {}, .tenant⟩
    let system : Caller := ⟨none, "en", true⟩
    let E : Engine := ⟨fun _ => none, fun _ => none, fun _ _ => false⟩
    let t := ((s.delete "tag" (.str "t1") system).transcript
      (Request.steady catalog (LinkMap.ofCatalog {} catalog) fun _ => [[("uuid", .str "t1")]])).1
    (s.delete "tag" (.str "t1") system).Runs t (.ok ()) ∧ Opposite tag note g f notes tags ∧
      (∃ m, (Link.ofField {} catalog note f tags).1 = some m ∧
        m.keys = .junction "JOINMN_NOTE_TAG_tags" "NOTE" "TAG" "uuid" "uuid") ∧
      E.Clears (Exchange.writes t) "JOINMN_NOTE_TAG_tags" "TAG" "t1" := by
  intro tags notes f g note tag catalog s system E t
  let answer := Request.steady catalog (LinkMap.ofCatalog {} catalog) fun _ =>
    [[("uuid", .str "t1")]]
  have hdone : ((s.delete "tag" (.str "t1") system).transcript answer).2 = .ok () := by
    dsimp only [tags, notes, f, g, note, tag, catalog, s, system, answer]
    rfl
  have htranscript : (s.delete "tag" (.str "t1") system).transcript answer = (t, .ok ()) :=
    Prod.ext rfl hdone
  obtain ⟨hruns, hanswers⟩ := Program.Runs.iff_transcript.2 htranscript
  have hopposite : Opposite tag note g f notes tags :=
    { mem := by simp [tag, Entity.new]
      mem' := by simp [note, Entity.new]
      ids := by decide
      ids' := by decide
      disjoint := by simp [note, tag, Entity.new, Field.new, f, g]
      connection := rfl
      connection' := rfl
      target := rfl
      target' := rfl
      reverse := rfl
      reverse' := rfl
      here := rfl
      there := rfl
      index := rfl
      index2 := rfl
      source := fun _ => rfl }
  have hlink : (Link.ofField {} catalog note f tags).1 = some ⟨"f", "tags", "tags__relation",
      .manyToMany, "tag", "TAG", true,
      .junction "JOINMN_NOTE_TAG_tags" "NOTE" "TAG" "uuid" "uuid"⟩ := by
    dsimp only [tags, notes, f, g, note, tag, catalog]
    rfl
  have hobject : catalog.entity? tag.id = some tag := rfl
  have hmetadata : Exchange.AnsweredWith catalog (LinkMap.ofCatalog s.settings catalog) t :=
    (Exchange.answeredWith_of_steady hanswers).1
  obtain ⟨b, ⟨u, hu, hlocked⟩, -, hcleared, -⟩ :=
    Session.delete_clears_sides (s := s) hobject hmetadata hruns E
  -- The row that was found is the one that the tables answer with.
  have hfound := Program.Runs.iff_transcript.1 ⟨hlocked, fun x hx => hanswers x (hu.subset hx)⟩
  have hrow : ((s.lockedRow tag (.str "t1") system "tag").transcript answer).2 =
      .ok ⟨tag, [("uuid", .str "t1")], .str "t1"⟩ := by
    dsimp only [tags, notes, f, g, note, tag, catalog, s, system, answer]
    rfl
  have hb : .ok ⟨tag, [("uuid", .str "t1")], .str "t1"⟩ = Except.ok b :=
    hrow.symm.trans (congrArg Prod.snd hfound)
  cases hb
  exact ⟨hruns, hopposite, ⟨_, hlink, rfl⟩,
    hcleared note g f notes tags _ _ rfl hopposite hlink rfl "t1" rfl⟩

/-- A tag is deleted that no field of its own leads to the notes of, and a person whom others have
among their friends: the note has the tag still, and the friend the person. -/
theorem Session.delete_leaves_pairs :
    let tags : Connection := ⟨"tag", none, .many, .many, true, none, none⟩
    let friends : Connection := ⟨"person", none, .many, .many, true, none, none⟩
    let note := Entity.new "note" "Note" "NOTE" [Field.new "f" "tags" (.connection tags)]
    let tag := Entity.new "tag" "Tag" "TAG" []
    let person := Entity.new "person" "Person" "PERSON"
      [Field.new "h" "friends" (.connection friends)]
    let catalog : Catalog := ⟨[note, tag, person], [], []⟩
    let s : Session := ⟨{}, {}, .tenant⟩
    let system : Caller := ⟨none, "en", true⟩
    let E : Engine := ⟨fun _ => none, fun _ => none, fun _ _ => false⟩
    let answer (key : String) := Request.steady catalog (LinkMap.ofCatalog {} catalog) fun _ =>
      [[("uuid", .str key)]]
    let t := ((s.delete "tag" (.str "t1") system).transcript (answer "t1")).1
    let t' := ((s.delete "person" (.str "p1") system).transcript (answer "p1")).1
    let T := Tables.ofCells [("NOTE", [[("uuid", "n1")]]), ("TAG", [[("uuid", "t1")]]),
      ("JOINMN_NOTE_TAG_tags", [[("NOTE", "n1"), ("TAG", "t1")]]),
      ("PERSON", [[("uuid", "p1")], [("uuid", "p2")]]),
      ("JOINMN_PERSON_PERSON_friends", [[("PERSON", "p2"), ("PERSON_friends", "p1")]])]
    ((LinkMap.resolve {} catalog note).1.links.map Link.keys =
        [.junction "JOINMN_NOTE_TAG_tags" "NOTE" "TAG" "uuid" "uuid"] ∧
      (s.delete "tag" (.str "t1") system).Runs t (.ok ()) ∧
      ∃ T', E.run T (Exchange.writes t) = some T' ∧ T' "TAG" = [] ∧
        ∃ r ∈ T' "JOINMN_NOTE_TAG_tags", r "NOTE" = some "n1" ∧ r "TAG" = some "t1") ∧
    (LinkMap.resolve {} catalog person).1.links.map Link.keys =
        [.junction "JOINMN_PERSON_PERSON_friends" "PERSON" "PERSON_friends" "uuid" "uuid"] ∧
      (s.delete "person" (.str "p1") system).Runs t' (.ok ()) ∧
      ∃ T', E.run T (Exchange.writes t') = some T' ∧ (∀ r ∈ T' "PERSON", r "uuid" ≠ some "p1") ∧
        ∃ r ∈ T' "JOINMN_PERSON_PERSON_friends",
          r "PERSON" = some "p2" ∧ r "PERSON_friends" = some "p1" := by
  intro tags friends note tag person catalog s system E answer t t' T
  have hruns : (s.delete "tag" (.str "t1") system).Runs t (.ok ()) := by
    apply Program.Runs.of_transcript
    dsimp only [tags, friends, note, tag, person, catalog, s, system, answer]
    rfl
  have hruns' : (s.delete "person" (.str "p1") system).Runs t' (.ok ()) := by
    apply Program.Runs.of_transcript
    dsimp only [tags, friends, note, tag, person, catalog, s, system, answer]
    rfl
  have hwrites : Exchange.writes t = [.delete "TAG" [columnIs "uuid" (.str "t1")]] := by
    dsimp only [tags, friends, note, tag, person, catalog, s, system, answer, t]
    rfl
  have hwrites' : Exchange.writes t' =
      [.delete "JOINMN_PERSON_PERSON_friends" [columnIs "PERSON" (.str "p1")],
        .delete "PERSON" [columnIs "uuid" (.str "p1")]] := by
    dsimp only [tags, friends, note, tag, person, catalog, s, system, answer, t']
    rfl
  refine ⟨⟨by decide, hruns, ?_⟩, by decide, hruns', ?_⟩
  · rw [hwrites]
    exact ⟨_, rfl, by decide⟩
  · rw [hwrites']
    exact ⟨_, rfl, by decide⟩

end CatalogQuery
