import CatalogQuery.Link.Resolve
import CatalogQuery.Proofs.Save.Wanted
import CatalogQuery.Proofs.Session.ReadOnly
import CatalogQuery.Proofs.Write.Accepted
import CatalogQuery.Save

/-!
# Updating links

An update compares the keys that a record is linked to with the wanted ones and writes the difference.
Main statement: a successful update takes away what is not wanted and then gives what is missing, and
leaves the record linked to exactly the wanted records.
-/

namespace CatalogQuery

open Sql

namespace Write

/-! ## Fields with room for one record -/

theorem length_linkedKeys_le_one {f : Field} {c : Connection} (hconnection : f.connection? = some c)
    (hhere : c.here = .one) {x : Json} (hcheck : f.type.check x = none) (column : String) :
    (Compile.linkedKeys x column).length ≤ 1 := by
  have htype : f.type = .connection c := by
    rw [Field.connection?] at hconnection
    split at hconnection <;> simp_all
  refine Nat.le_trans (List.length_filterMap_le _ _) ?_
  cases x with
  | arr items =>
    rw [htype] at hcheck
    simpa [FieldType.check, Json.isNull, hhere, Compile.valuesOf] using hcheck
  | null | bool | num | str | obj => simp [Compile.valuesOf]

/-- Where there is room for one linked record only, the field takes one only. -/
theorem here_of_alone {settings : Settings} {catalog : Catalog} {e : Entity} {f : Field}
    {c : Connection} {v : LinkValues}
    (hlink : (Link.ofField settings catalog e f c).1 = some v.link) (h : Alone v) :
    c.here = .one := by
  obtain ⟨l, column, ks⟩ := v
  rw [Link.ofField] at hlink
  split at hlink
  · cases hlink
  rename_i target _
  split at hlink
  · rename_i keys _ hkeys
    have hkeys : (Link.keysOf settings e target f c).1 = some keys := by rw [hkeys]
    cases hlink
    rw [Link.keysOf] at hkeys
    obtain ⟨t, reverse, here, there, isSource, index, index2⟩ := c
    cases here with
    | one => rfl
    | many =>
      cases there with
      | one =>
        -- The linked table holds a many to one link, so it is no one to one link.
        obtain ⟨r, -, rfl⟩ := Option.map_eq_some_iff.1 hkeys
        cases h
      | many =>
        cases hkeys
        exact h.elim
  · cases hlink

end Write

/-! ## The requests of an update -/

namespace Program.Runs

/-- The parts of a run that does the same for each element of a list. -/
theorem mapM_ok {α β : Type} {f : α → Program β} {as : List α} {t : List Exchange} {bs : List β}
    (h : (as.mapM f).Runs t (.ok bs)) :
    as.length = bs.length ∧
      ∀ x ∈ as.zip bs, ∃ u, (f x.1).Runs u (.ok x.2) ∧ ∀ exchange ∈ u, exchange ∈ t := by
  induction as generalizing t bs with
  | nil =>
    obtain ⟨-, hbs⟩ := h
    cases hbs
    simp
  | cons a rest ih =>
    rw [List.mapM_cons] at h
    obtain ⟨t₁, t₂, b, rfl, hfirst, h⟩ := bind_ok.1 h
    obtain ⟨t₂, t₃, cs, rfl, hrest, -, hbs⟩ := bind_ok.1 h
    cases hbs
    obtain ⟨hlength, hparts⟩ := ih hrest
    refine ⟨congrArg Nat.succ hlength, ?_⟩
    rw [List.zip_cons_cons, List.forall_mem_cons]
    refine ⟨⟨t₁, hfirst, by simp +contextual⟩, fun x hx => ?_⟩
    obtain ⟨u, hu, hsub⟩ := hparts x hx
    exact ⟨u, hu, by simp +contextual [hsub]⟩

end Program.Runs

namespace Session

open Write

variable {s : Session} {e : Entity} {entity : String} {key values : Json} {caller : Caller}
  {t : List Exchange}

theorem exists_mem_zip {α β : Type} {as : List α} {bs : List β} (h : as.length = bs.length) {a : α}
    (ha : a ∈ as) : ∃ b, (a, b) ∈ as.zip bs := by
  rw [← List.map_fst_zip (Nat.le_of_eq h)] at ha
  obtain ⟨⟨a, b⟩, hpair, rfl⟩ := List.mem_map.1 ha
  exact ⟨b, hpair⟩

theorem onlyReads_orNotFound {α : Type} (e : Entity) (key : Json) (a : Option α) :
    s.OnlyReads (orNotFound e key a) := by
  cases a with
  | some a => exact .pure a
  | none =>
    rw [orNotFound]
    exact .ofResult

theorem onlyReads_saved (s : Session) (e : Entity) (key : Json) (caller : Caller) :
    s.OnlyReads (s.saved e key caller) :=
  (s.onlyReads_readRow e key caller).bind fun _ => (onlyReads_orNotFound ..).map

theorem onlyReads_lockedRow (s : Session) (e : Entity) (key : Json) (caller : Caller)
    (entity : String) : s.OnlyReads (s.lockedRow e key caller entity) :=
  (OnlyReads.lock ..).bind fun _ => (s.onlyReads_findOne ..).bind fun _ =>
    (onlyReads_orNotFound ..).bind fun _ => .pure _

theorem onlyReads_currentKeys (s : Session) (b : Base) (v : LinkValues) :
    s.OnlyReads (s.currentKeys b v) := by
  rw [currentKeys]
  split
  · exact .pure _
  · exact (s.onlyReads_fetch _).bind fun _ => .pure _

theorem writes_of_executeAll {ws : List Sql.Write} (h : (s.executeAll ws).Runs t (.ok ())) :
    Exchange.writes t = ws := by
  induction ws generalizing t with
  | nil =>
    obtain ⟨rfl, -⟩ := h
    rfl
  | cons w rest ih =>
    obtain ⟨t₁, t₂, n, rfl, hw, hrest⟩ := Program.Runs.bind_ok.1 h
    rw [Exchange.writes_append, ih hrest, Program.Runs.execute_ok hw]
    rfl

theorem entity_of_lockedRow {b : Base} (h : (s.lockedRow e key caller entity).Runs t (.ok b)) :
    b.entity = e := by
  obtain ⟨_, _, _, -, -, h⟩ := Program.Runs.bind_ok.1 h
  obtain ⟨_, _, _, -, -, h⟩ := Program.Runs.bind_ok.1 h
  obtain ⟨_, _, _, -, -, -, hb⟩ := Program.Runs.bind_ok.1 h
  cases hb
  rfl

/-- The keys that come back are those that the database has. -/
theorem currentIn_of_runs {E : Engine} {T : Tables} {b : Base} {v : LinkValues} {keys : List Json}
    (h : (s.currentKeys b v).Runs t (.ok keys))
    (hanswers : ∀ statement, currentSelect b v = some statement → ∀ channel rows,
      ⟨.fetch channel statement, .ok rows⟩ ∈ t → E.Answers T statement rows) :
    CurrentIn E T b v keys := by
  rw [currentKeys] at h
  rw [CurrentIn]
  cases hselect : currentSelect b v with
  | none =>
    rw [hselect] at h
    cases h.2
    rfl
  | some statement =>
    rw [hselect] at h
    obtain ⟨t₁, t₂, rows, rfl, hfetch, -, hkeys⟩ := Program.Runs.bind_ok.1 h
    cases hkeys
    refine ⟨rows, hanswers statement hselect s.channel rows ?_, rfl⟩
    obtain ⟨failures, -, -, rfl⟩ := Program.Runs.fetch_ok hfetch
    simp

/-- What an update goes by: the metadata, its input, the record as it was found and the keys that it
was linked to through each link that is given. -/
structure Update where
  catalog : Catalog
  links : LinkMap
  entity : Entity
  input : Json.Members
  prepared : Prepared
  base : Base
  stored : List (List Json)

namespace Update

variable {u : Update}

/-- The statement that writes the columns of the record, if there are any to write. -/
def rowWrites (u : Update) (settings : Settings) : List Sql.Write :=
  let row := assignments u.prepared.columns ++
    if settings.updatedAt then [⟨"updated_at", .now⟩] else []
  if row.isEmpty then [] else [.update u.entity.table row [u.base.isRow]]

/-- The links that are given, each with the keys that the record was linked to. -/
def pairs (u : Update) : List (LinkValues × List Json) := u.prepared.links.zip u.stored

/-- The statements that relink the record. -/
def relinks (u : Update) (pairs : List (LinkValues × List Json)) : List Sql.Write :=
  pairs.flatMap fun x => relink u.base x.1 x.2

/-- Whether the run of an update goes by these data: the values are accepted as they say, and the
record is found under its lock and its links are read before anything is written. -/
structure Of (u : Update) (s : Session) (entity : String) (key values : Json) (caller : Caller)
    (t : List Exchange) : Prop where
  object : u.catalog.entity entity = .ok u.entity
  members : inputMembers values = .ok u.input
  prepare : prepare s.settings u.catalog u.entity u.links u.input false = .ok u.prepared
  accepted : u.prepared.errors = []
  requests : ∃ (links : Links) (found read written : List Exchange),
    t = ⟨.catalog, u.catalog⟩ :: ⟨.links, links⟩ :: ⟨.consult entity, ()⟩ ::
      (found ++ read ++ written) ∧
    links entity = .ok u.links ∧
    (s.lockedRow u.entity key caller entity).Runs found (.ok u.base) ∧
    (u.prepared.links.mapM (s.currentKeys u.base)).Runs read (.ok u.stored) ∧
    Exchange.writes written = u.rowWrites s.settings ++ u.relinks u.pairs

/-- Whatever an update writes, it writes after it was found out what to write. -/
theorem Of.writes_eq (h : u.Of s entity key values caller t) :
    Exchange.writes t = u.rowWrites s.settings ++ u.relinks u.pairs := by
  obtain ⟨links, found, read, written, rfl, -, hfound, hread, hwritten⟩ := h.requests
  rw [← hwritten, List.append_assoc]
  change Exchange.writes (found ++ (read ++ written)) = _
  rw [Exchange.writes_append, Exchange.writes_append,
    (onlyReads_lockedRow ..).writes_eq_nil hfound,
    (OnlyReads.mapM (fun v => s.onlyReads_currentKeys u.base v) _).writes_eq_nil hread]
  rfl

/-- The statements of one link stand among those of the others. -/
theorem Of.writes_split (h : u.Of s entity key values caller t)
    {before after : List (LinkValues × List Json)} {v : LinkValues} {stored : List Json}
    (hsplit : u.pairs = before ++ (v, stored) :: after) :
    Exchange.writes t = u.rowWrites s.settings ++ u.relinks before ++ relink u.base v stored ++
      u.relinks after := by
  rw [h.writes_eq, hsplit]
  simp [Update.relinks]

theorem Of.entity_eq (h : u.Of s entity key values caller t) : u.base.entity = u.entity := by
  obtain ⟨-, found, read, written, -, -, hfound, -, -⟩ := h.requests
  exact entity_of_lockedRow hfound

/-- What an update goes by is settled by what is answered. -/
theorem Of.of_answers {answer : (r : Request) → r.Answer}
    (h : u.Of s entity key values caller t) (hanswers : ∀ x ∈ t, x.answer = answer x.request) :
    u.catalog = answer .catalog ∧ (answer .links : Links) entity = .ok u.links ∧
    ((s.lockedRow u.entity key caller entity).transcript answer).2 = .ok u.base ∧
    ((u.prepared.links.mapM (s.currentKeys u.base)).transcript answer).2 = .ok u.stored := by
  obtain ⟨links, found, read, written, rfl, hlinks, hfound, hread, -⟩ := h.requests
  have hmap : links = answer .links := hanswers ⟨.links, links⟩ (by simp)
  rw [Program.Runs.iff_transcript.1 ⟨hfound, fun x hx => hanswers x (by simp [hx])⟩,
    Program.Runs.iff_transcript.1 ⟨hread, fun x hx => hanswers x (by simp [hx])⟩, ← hmap]
  exact ⟨hanswers ⟨.catalog, u.catalog⟩ (by simp), hlinks, rfl, rfl⟩

theorem Of.eq_of_answers {answer : (r : Request) → r.Answer} {u₀ : Update}
    (h : u.Of s entity key values caller t) (hanswers : ∀ x ∈ t, x.answer = answer x.request)
    (hcatalog : answer .catalog = u₀.catalog) (hobject : u₀.catalog.entity entity = .ok u₀.entity)
    (hmembers : inputMembers values = .ok u₀.input)
    (hlinks : (answer .links : Links) entity = .ok u₀.links)
    (hprepare : Write.prepare s.settings u₀.catalog u₀.entity u₀.links u₀.input false =
      .ok u₀.prepared)
    (hbase : ((s.lockedRow u₀.entity key caller entity).transcript answer).2 = .ok u₀.base)
    (hstored : ((u₀.prepared.links.mapM (s.currentKeys u₀.base)).transcript answer).2 =
      .ok u₀.stored) : u = u₀ := by
  obtain ⟨hcatalog', hlinks', hbase', hstored'⟩ := h.of_answers hanswers
  obtain ⟨hobject', hmembers', hprepare', -, -⟩ := h
  obtain ⟨catalog, links, e, input, prepared, base, stored⟩ := u
  obtain ⟨catalog₀, links₀, e₀, input₀, prepared₀, base₀, stored₀⟩ := u₀
  dsimp only at *
  -- Each of the data is settled by those in front of it.
  obtain rfl := hcatalog'.trans hcatalog
  cases hobject.symm.trans hobject'
  cases hmembers.symm.trans hmembers'
  cases hlinks.symm.trans hlinks'
  cases hprepare.symm.trans hprepare'
  cases hbase.symm.trans hbase'
  cases hstored.symm.trans hstored'
  rfl

end Update

/-- Every successful update goes by some data. -/
theorem exists_of_update {row : Row}
    (h : (s.update entity key values caller).Runs t (.ok (.saved row))) :
    ∃ u : Update, u.Of s entity key values caller t := by
  obtain ⟨catalog, t₁, rfl, h₁⟩ := Program.Runs.catalog_bind_iff.1 h
  obtain ⟨e, hentity, h₂⟩ := Program.Runs.ofResult_bind_ok.1 h₁
  obtain ⟨_, t₃, map, rfl, hmap, h₃⟩ := Program.Runs.bind_ok.1 h₂
  obtain ⟨links, rfl, hlinks⟩ := Program.Runs.linksOf_iff.1 hmap
  obtain ⟨input, hinput, h₄⟩ := Program.Runs.ofResult_bind_ok.1 h₃
  obtain ⟨p, hprepare, h₅⟩ := Program.Runs.ofResult_bind_ok.1 h₄
  split at h₅
  · cases h₅.2
  rename_i herrors
  obtain ⟨found, t₆, base, rfl, hfound, h₆⟩ := Program.Runs.bind_ok.1 h₅
  obtain ⟨read, t₇, stored, rfl, hread, h₇⟩ := Program.Runs.bind_ok.1 h₆
  refine ⟨⟨catalog, map, e, input, p, base, stored⟩, hentity, hinput, hprepare,
    by simpa using herrors, links, found, read, t₇, by simp, hlinks.symm, hfound, hread, ?_⟩
  have hlast {t : List Exchange}
      (h : (do
        s.executeAll ((p.links.zip stored).flatMap fun x => relink base x.1 x.2)
        s.saved e base.key caller : Program SaveOutcome).Runs t (.ok (.saved row))) :
      Exchange.writes t = (p.links.zip stored).flatMap fun x => relink base x.1 x.2 := by
    obtain ⟨t₁, t₂, _, rfl, hall, hsaved⟩ := Program.Runs.bind_ok.1 h
    rw [Exchange.writes_append, writes_of_executeAll hall,
      (s.onlyReads_saved e base.key caller).writes_eq_nil hsaved, List.append_nil]
  dsimp only [Update.rowWrites, Update.relinks, Update.pairs]
  dsimp only at h₇
  generalize (assignments p.columns ++
    if s.settings.updatedAt then [⟨"updated_at", .now⟩] else []) = columns at h₇ ⊢
  split at h₇
  · rename_i hcolumns
    obtain ⟨t₈, t₉, n, rfl, hrow, h₉⟩ := Program.Runs.bind_ok.1 h₇
    rw [Exchange.writes_append, hlast h₉, Program.Runs.execute_ok hrow,
      if_neg (by simpa using hcolumns)]
    rfl
  · rename_i hcolumns
    rw [hlast h₇, if_pos (by simpa using hcolumns)]
    rfl

theorem eq_of_singleton_eq {α : Type} {a b : α} {before after : List α}
    (h : [a] = before ++ b :: after) : before = [] ∧ b = a ∧ after = [] := by
  cases before with
  | nil =>
    cases h
    exact ⟨rfl, rfl, rfl⟩
  | cons c rest => simp at h

/-- Among the links that are given each one stands with the keys that were read of it. -/
theorem exists_pair {b : Base} {links : List LinkValues} {stored : List (List Json)}
    (h : (links.mapM (s.currentKeys b)).Runs t (.ok stored)) {v : LinkValues} (hv : v ∈ links) :
    ∃ keys before after, links.zip stored = before ++ (v, keys) :: after ∧
      ∃ w, (s.currentKeys b v).Runs w (.ok keys) ∧ w ⊆ t := by
  obtain ⟨hlength, hreads⟩ := Program.Runs.mapM_ok h
  obtain ⟨keys, hpair⟩ := exists_mem_zip hlength hv
  obtain ⟨before, after, hsplit⟩ := List.append_of_mem hpair
  obtain ⟨w, hw, hsub⟩ := hreads _ hpair
  exact ⟨keys, before, after, hsplit, w, hw, hsub⟩

/-- A successful update that is given a value for a connection takes away the links that are not
wanted, in the order in which they were found, then gives those that are missing, in the order of the
value, and sends nothing else for that connection. Once its statements are carried out, the record is
linked to the wanted records only, and no other record has gained a link. -/
theorem update_links_wanted {row : Row}
    (h : (s.update entity key values caller).Runs t (.ok (.saved row))) :
    (∃ u : Update, u.Of s entity key values caller t) ∧
    ∀ u : Update, u.Of s entity key values caller t →
    ∀ f ∈ u.entity.fields, ∀ (c : Connection) (l : Link) (x : Json),
      f.connection? = some c → f.multilingual = false → supplied u.input f = some x →
      u.links.get f.id = some l → (Link.ofField s.settings u.catalog u.entity f c).1 = some l →
    ∃ target stored before after, u.catalog.entity l.target = .ok target ∧
      let v := wantedOf l target x
      u.pairs = before ++ (v, stored) :: after ∧
      Exchange.writes t = u.rowWrites s.settings ++ u.relinks before ++
        ((without stored v.keys).flatMap (Write.unrelate u.base l v.keyColumn) ++
          (without v.keys stored).flatMap (Write.relate u.base l v.keyColumn)) ++
        u.relinks after ∧
      ∀ (E : Engine) (T T' : Tables), E.run T (Exchange.writes t) = some T' →
        (∀ statement, currentSelect u.base v = some statement → ∀ channel rows,
          ⟨.fetch channel statement, .ok rows⟩ ∈ t → E.Answers T statement rows) →
        Relinkable T u.base v stored →
        (∀ w ∈ u.rowWrites s.settings ++ u.relinks before ++ u.relinks after,
          LeavesAlone u.entity v w) →
        Relinked E T T' u.base v := by
  refine ⟨exists_of_update h, fun u hu f hf c l x hc hmulti hx hl hlink => ?_⟩
  obtain ⟨target, htarget, hcheck, hmem⟩ :=
    mem_links_of_prepare hu.prepare hu.accepted hf hc hmulti hx hl
  obtain ⟨links, found, read, written, ht, -, -, hread, -⟩ := hu.requests
  obtain ⟨stored, before, after, hsplit, read', hrun', hsub⟩ := exists_pair hread hmem
  have hwrites := hu.writes_split hsplit
  refine ⟨target, stored, before, after, htarget, hsplit, hwrites, ?_⟩
  intro E T T' hrun hanswers hrelinkable hothers
  rw [hwrites] at hrun
  rw [← hu.entity_eq] at hothers
  refine relinked hrelinkable (currentIn_of_runs hrun' fun statement hselect channel rows hrow => ?_)
    (fun halone => ?_) hothers hrun
  · refine hanswers statement hselect channel rows ?_
    rw [ht]
    simp [hsub hrow]
  · exact Nat.le_trans (Json.length_distinct_le _ _)
      (length_linkedKeys_le_one hc (here_of_alone hlink halone) hcheck _)

/-- Of the tags of a note one is taken away, one stays and one is new. -/
theorem update_links_wanted_tags :
    let s : Session := ⟨{}, {}, .tenant⟩
    let system : Caller := ⟨none, "en", true⟩
    let f := Field.new "f" "tags" (.connection (.between "tag" .many .many))
    let note := Entity.new "note" "Note" "NOTE" [f]
    let tag := Entity.new "tag" "Tag" "TAG" []
    let catalog : Catalog := ⟨[note, tag], [], []⟩
    let junction := "JOINMN_NOTE_TAG_tags"
    let l : Link := ⟨"f", "tags", "tags__relation", .manyToMany, "tag", "TAG", true,
      .junction junction "NOTE" "TAG" "uuid" "uuid"⟩
    let row : Row := [("uuid", .str "n1")]
    let stored : List Json := [.str "t1", .str "t2"]
    let wanted : Json := .arr [.str "t2", .str "t3"]
    let answer := Request.steady catalog (LinkMap.ofCatalog {} catalog) fun statement =>
      if statement.source.table = junction then stored.map fun k => [("__key", k)] else [row]
    let t := ((s.update "note" (.str "n1") (.obj [("tags", wanted)]) system).transcript answer).1
    let E : Engine := ⟨fun _ => none, fun _ => none, fun _ _ => false⟩
    let T := Tables.ofCells [("NOTE", [[("uuid", "n1")]]),
      ("TAG", [[("uuid", "t1")], [("uuid", "t2")], [("uuid", "t3")]]),
      (junction, [[("NOTE", "n1"), ("TAG", "t1")], [("NOTE", "n1"), ("TAG", "t2")]])]
    let b : Base := ⟨note, row, .str "n1"⟩
    (s.update "note" (.str "n1") (.obj [("tags", wanted)]) system).Runs t (.ok (.saved row)) ∧
      Exchange.writes t = [.update "NOTE" [⟨"updated_at", .now⟩] [columnIs "uuid" (.str "n1")],
        .delete junction [columnIs "NOTE" (.str "n1"), columnIs "TAG" (.str "t1")],
        .insertPair junction (setTo "NOTE" (.str "n1")) (setTo "TAG" (.str "t3"))] ∧
      ∃ T', E.run T (Exchange.writes t) = some T' ∧
        Relinked E T T' b (wantedOf l tag wanted) := by
  intro s system f note tag catalog junction l row stored wanted answer t E T b
  have hresult : ((s.update "note" (.str "n1") (.obj [("tags", wanted)]) system).transcript
      answer).2 = .ok (.saved row) := by
    dsimp only [s, system, f, note, tag, catalog, row, wanted, stored, answer, junction]
    rfl
  have htranscript : (s.update "note" (.str "n1") (.obj [("tags", wanted)]) system).transcript
      answer = (t, .ok (.saved row)) := Prod.ext rfl hresult
  obtain ⟨hrun, hanswers⟩ := Program.Runs.iff_transcript.2 htranscript
  have hwrites : Exchange.writes t =
      [.update "NOTE" [⟨"updated_at", .now⟩] [columnIs "uuid" (.str "n1")],
        .delete junction [columnIs "NOTE" (.str "n1"), columnIs "TAG" (.str "t1")],
        .insertPair junction (setTo "NOTE" (.str "n1")) (setTo "TAG" (.str "t3"))] := by
    dsimp only [t, s, system, f, note, tag, catalog, row, wanted, stored, answer, junction]
    rfl
  obtain ⟨T', hT⟩ : ∃ T', E.run T (Exchange.writes t) = some T' := by
    rw [hwrites]
    refine Option.isSome_iff_exists.1 ?_
    dsimp only [E, T, junction]
    rfl
  refine ⟨hrun, hwrites, T', hT, ?_⟩
  -- What the database has, and what the other statement is about.
  have hrelinkable : Relinkable T b (wantedOf l tag wanted) stored := by
    have hstored : ∀ k ∈ stored, IsKey k := List.forall_mem_cons.2
      ⟨⟨by decide, by decide⟩, List.forall_mem_singleton.2 ⟨by decide, by decide⟩⟩
    have hwanted : ∀ k ∈ [Json.str "t2", Json.str "t3"], IsKey k := List.forall_mem_cons.2
      ⟨⟨by decide, by decide⟩, List.forall_mem_singleton.2 ⟨by decide, by decide⟩⟩
    have htargets : ∀ k ∈ [Json.str "t2", Json.str "t3"], ∃ x ∈ T "TAG", x "uuid" = some k.plain :=
      List.forall_mem_cons.2 ⟨⟨_, List.mem_cons_of_mem _ List.mem_cons_self, rfl⟩,
        List.forall_mem_singleton.2
          ⟨_, List.mem_cons_of_mem _ (List.mem_cons_of_mem _ List.mem_cons_self), rfl⟩⟩
    refine ⟨fun h => absurd h (by decide), ⟨⟨_, List.mem_singleton.2 rfl, rfl⟩, ?_⟩, htargets,
      hwanted, hstored, ⟨by decide, by decide⟩, fun _ _ h => by cases h⟩
    intro r hr _ c hc
    cases List.mem_singleton.1 hr
    cases List.mem_singleton.1 hc
    rfl
  have hothers : ∀ w ∈ [Sql.Write.update "NOTE" [⟨"updated_at", .now⟩]
      [columnIs "uuid" (.str "n1")]], LeavesAlone note (wantedOf l tag wanted) w := by
    rw [List.forall_mem_singleton]
    refine ⟨fun h => absurd h (by decide), fun _ => ?_⟩
    rw [List.forall_mem_singleton]
    decide
  have hread : E.Answers T (.plain false [.named (.bare "TAG") keyAlias] ⟨junction, none, []⟩
      (some (columnIs "NOTE" (.str "n1")))) (stored.map fun k => [("__key", k)]) :=
    answers_keys stored rfl (.cons rfl (.cons rfl .nil))
  -- What the update goes by follows from the answers.
  have hobject : catalog.entity "note" = .ok note := rfl
  have htarget : catalog.entity "tag" = .ok tag := rfl
  have hmap : LinkMap.ofCatalog {} catalog "note" = .ok ⟨"note", [l]⟩ := by
    dsimp only [catalog, note, tag, f, l, junction]
    rfl
  have hlink : (Link.ofField {} catalog note f (.between "tag" .many .many)).1 = some l := by
    dsimp only [catalog, note, tag, f, l, junction]
    rfl
  have hprepare : prepare {} catalog note ⟨"note", [l]⟩ [("tags", wanted)] false =
      .ok ⟨[], [wantedOf l tag wanted], []⟩ := by
    dsimp only [catalog, note, tag, f, l, junction, wanted]
    rfl
  have hbase : ((s.lockedRow note (.str "n1") system "note").transcript answer).2 = .ok b := by
    dsimp only [s, system, answer, stored, row, catalog, note, tag, f, l, junction, wanted, b]
    rfl
  have hstored : (([wantedOf l tag wanted].mapM (s.currentKeys b)).transcript answer).2 =
      .ok [stored] := by
    dsimp only [s, system, answer, stored, row, catalog, note, tag, f, l, junction, wanted, b]
    rfl
  obtain ⟨⟨u, hu⟩, hlinks⟩ := update_links_wanted hrun
  have hlinked := hlinks u hu f
  obtain rfl : u = ⟨catalog, ⟨"note", [l]⟩, note, [("tags", wanted)],
      ⟨[], [wantedOf l tag wanted], []⟩, b, [stored]⟩ :=
    hu.eq_of_answers hanswers rfl hobject rfl hmap hprepare hbase hstored
  obtain ⟨target, stored', before, after, htarget', hpairs, -, hrelinked⟩ :=
    hlinked (List.mem_singleton.2 rfl) _ l wanted rfl rfl rfl rfl hlink
  cases htarget.symm.trans htarget'
  obtain ⟨rfl, hpair, rfl⟩ := eq_of_singleton_eq hpairs
  cases hpair
  refine hrelinked E T T' hT ?_ hrelinkable hothers
  intro statement hselect channel rows hmem
  have hrows := hanswers _ hmem
  cases hselect
  cases (hrows : Except.ok rows = Except.ok (stored.map fun k => [("__key", k)]))
  exact hread

/-- What stands in the way of the wanted links: a stored key that is the text of a function call, a link
that is held in the column by which its records are found, another link that is held in the same
column, a record that is known by the same value, and a record that is known by the text of a function
call. -/
theorem update_links_unwanted :
    let s : Session := ⟨{}, {}, .tenant⟩
    let system : Caller := ⟨none, "en", true⟩
    let E : Engine := ⟨fun _ => none, fun _ => none, fun _ _ => false⟩
    -- The stored key `NOW()` is taken for the time, so its pair stays.
    (let f := Field.new "f" "tags" (.connection (.between "tag" .many .many))
    let note := Entity.new "note" "Note" "NOTE" [f]
    let catalog : Catalog := ⟨[note, .new "tag" "Tag" "TAG" []], [], []⟩
    let junction := "JOINMN_NOTE_TAG_tags"
    let row : Row := [("uuid", .str "n1")]
    let answer := Request.steady catalog (LinkMap.ofCatalog {} catalog) fun statement =>
      if statement.source.table = junction then [[("__key", .str "NOW()")]] else [row]
    let values : Json := .obj [("tags", .str "t2")]
    let t := ((s.update "note" (.str "n1") values system).transcript answer).1
    let T := Tables.ofCells [("NOTE", [[("uuid", "n1")]]),
      ("TAG", [[("uuid", "NOW()")], [("uuid", "t2")]]),
      (junction, [[("NOTE", "n1"), ("TAG", "NOW()")]])]
    let b : Base := ⟨note, row, .str "n1"⟩
    let v : LinkValues := ⟨⟨"f", "tags", "tags__relation", .manyToMany, "tag", "TAG", true,
      .junction junction "NOTE" "TAG" "uuid" "uuid"⟩, "uuid", [.str "t2"]⟩
    (s.update "note" (.str "n1") values system).Runs t (.ok (.saved row)) ∧
      CurrentIn E T b v [.str "NOW()"] ∧
      ∃ T', E.run T (Exchange.writes t) = some T' ∧
        CurrentIn E T' b v [.str "NOW()", .str "t2"]) ∧
    -- The badge gets the key of the person in place of its own.
    (let badge := Field.new "b" "badge" (.connection
      ⟨"badge", some "r", .one, .one, false, none, none⟩)
    let holder := Field.new "r" "uuid" (.connection
      ⟨"person", some "b", .one, .one, true, none, none⟩)
    let person := Entity.new "person" "Person" "PERSON" [badge]
    let catalog : Catalog := ⟨[person, .new "badge" "Badge" "BADGE" [holder]], [], []⟩
    let row : Row := [("uuid", .str "p1")]
    let answer := Request.steady catalog (LinkMap.ofCatalog {} catalog) fun statement =>
      if statement.source.table = "PERSON" then [row] else []
    let values : Json := .obj [("badge", .str "b1")]
    let t := ((s.update "person" (.str "p1") values system).transcript answer).1
    let T := Tables.ofCells [("PERSON", [[("uuid", "p1")]]), ("BADGE", [[("uuid", "b1")]])]
    let b : Base := ⟨person, row, .str "p1"⟩
    let v : LinkValues := ⟨⟨"b", "badge", "badge__relation", .oneToOne, "badge", "BADGE", false,
      .linked "uuid" "uuid"⟩, "uuid", [.str "b1"]⟩
    (s.update "person" (.str "p1") values system).Runs t (.ok (.saved row)) ∧
      CurrentIn E T b v [] ∧
      ∃ T', E.run T (Exchange.writes t) = some T' ∧ CurrentIn E T' b v [.str "p1"]) ∧
    -- The new partner also lets go of the one that the record has just become the partner of.
    (let partnerOf := Field.new "o" "partner_of" (.connection
      ⟨"person", some "p", .one, .one, false, none, none⟩)
    let partner := Field.new "p" "partner" (.connection
      ⟨"person", some "o", .one, .one, true, none, none⟩)
    let person := Entity.new "person" "Person" "PERSON" [partnerOf, partner]
    let catalog : Catalog := ⟨[person], [], []⟩
    let row : Row := [("partner", .null), ("uuid", .str "p1")]
    let answer := Request.steady catalog (LinkMap.ofCatalog {} catalog) fun statement =>
      if statement.limit.isSome then [row] else []
    let values : Json := .obj [("partner", .str "p3"), ("partner_of", .str "p2")]
    let t := ((s.update "person" (.str "p1") values system).transcript answer).1
    let T := Tables.ofCells [("PERSON", [[("uuid", "p1")], [("uuid", "p2")], [("uuid", "p3")]])]
    let b : Base := ⟨person, row, .str "p1"⟩
    let v : LinkValues := ⟨⟨"o", "partner_of", "partner_of__relation", .oneToOne, "person", "PERSON",
      false, .linked "partner" "uuid"⟩, "uuid", [.str "p2"]⟩
    (s.update "person" (.str "p1") values system).Runs t (.ok (.saved row)) ∧
      CurrentIn E T b v [] ∧
      ∃ T', E.run T (Exchange.writes t) = some T' ∧ CurrentIn E T' b v [.str "p3"]) ∧
    -- Sites are owned by teams: all of a team gain a site, and no team is named as the time is.
    (let sites := Field.new "s" "sites" (.connection
      ⟨"site", some "o", .many, .one, false, some "t", none⟩)
    let team := Field.new "t" "team" .text
    let person := Entity.new "person" "Person" "PERSON" [team, sites]
    let owner := Field.new "o" "owner" (.connection
      ⟨"person", some "s", .one, .many, true, some "t", none⟩)
    let catalog : Catalog := ⟨[person, .new "site" "Site" "SITE" [owner]], [], []⟩
    let answer (row : Row) := Request.steady catalog (LinkMap.ofCatalog {} catalog) fun statement =>
      if statement.source.table = "PERSON" then [row] else []
    let values : Json := .obj [("sites", .arr [.str "s1"])]
    let t (row : Row) :=
      ((s.update "person" (.str "p1") values system).transcript (answer row)).1
    let v : LinkValues := ⟨⟨"s", "sites", "sites__relation", .manyToOne, "site", "SITE", true,
      .linked "owner" "team"⟩, "uuid", [.str "s1"]⟩
    (let row : Row := [("team", .str "a"), ("uuid", .str "p1")]
    let other : List (String × String) := [("uuid", "p2"), ("team", "a")]
    let T := Tables.ofCells [("PERSON", [[("uuid", "p1"), ("team", "a")], other]),
      ("SITE", [[("uuid", "s1")]])]
    (s.update "person" (.str "p1") values system).Runs (t row) (.ok (.saved row)) ∧
      ¬ IsLinked T person v (fun c => other.lookup c) "s1" ∧
      ∃ T', E.run T (Exchange.writes (t row)) = some T' ∧
        ∃ r ∈ T' "PERSON", r "uuid" = some "p2" ∧ IsLinked T' person v r "s1") ∧
    (let row : Row := [("team", .str "NOW()"), ("uuid", .str "p1")]
    let T := Tables.ofCells [("PERSON", [[("uuid", "p1"), ("team", "NOW()")]]),
      ("SITE", [[("uuid", "s1")]])]
    let b : Base := ⟨person, row, .str "p1"⟩
    (s.update "person" (.str "p1") values system).Runs (t row) (.ok (.saved row)) ∧
      CurrentIn E T b v [] ∧
      ∃ T', E.run T (Exchange.writes (t row)) = some T' ∧ CurrentIn E T' b v [])) := by
  intro s system E
  refine ⟨?_, ?_, ?_, ?_⟩
  · intro f note catalog junction row answer values t T b v
    have hwrites : Exchange.writes t =
        [.update "NOTE" [⟨"updated_at", .now⟩] [columnIs "uuid" (.str "n1")],
          .delete junction [columnIs "NOTE" (.str "n1"), columnIs "TAG" (.str "NOW()")],
          .insertPair junction (setTo "NOTE" (.str "n1")) (setTo "TAG" (.str "t2"))] := by
      dsimp only [t, s, system, f, note, catalog, row, answer, values, junction]
      rfl
    refine ⟨.of_transcript ?_, ⟨_, answers_keys [.str "NOW()"] rfl (.cons rfl .nil), rfl⟩, ?_⟩
    · dsimp only [s, system, f, note, catalog, row, answer, values, junction]
      rfl
    · rw [hwrites]
      exact ⟨_, rfl, _,
        answers_keys [.str "NOW()", .str "t2"] rfl (.cons rfl (.cons rfl .nil)), rfl⟩
  · intro badge holder person catalog row answer values t T b v
    have hwrites : Exchange.writes t =
        [.update "PERSON" [⟨"updated_at", .now⟩] [columnIs "uuid" (.str "p1")],
          .update "BADGE" [setNull "uuid"] [columnIs "uuid" (.str "p1")],
          .update "BADGE" [setTo "uuid" (.str "p1")] [columnIs "uuid" (.str "b1")]] := by
      dsimp only [t, s, system, badge, holder, person, catalog, row, answer, values]
      rfl
    refine ⟨.of_transcript ?_, ⟨[], ⟨_, .refl _, .nil⟩, rfl⟩, ?_⟩
    · dsimp only [s, system, badge, holder, person, catalog, row, answer, values]
      rfl
    · rw [hwrites]
      exact ⟨_, rfl, _, answers_keys [.str "p1"] rfl (.cons rfl .nil), rfl⟩
  · intro partnerOf partner person catalog row answer values t T b v
    have hwrites : Exchange.writes t =
        [.update "PERSON" [⟨"updated_at", .now⟩] [columnIs "uuid" (.str "p1")],
          .update "PERSON" [setNull "partner"] [columnIs "partner" (.str "p1")],
          .update "PERSON" [setTo "partner" (.str "p1")] [columnIs "uuid" (.str "p2")],
          .update "PERSON" [setNull "partner"] [columnAmong "partner" [.str "p1", .str "p3"]],
          .update "PERSON" [setTo "partner" (.str "p3")] [columnIs "uuid" (.str "p1")],
          .update "PERSON" [setTo "partner" (.str "p1")] [columnIs "uuid" (.str "p3")]] := by
      dsimp only [t, s, system, partnerOf, partner, person, catalog, row, answer, values]
      rfl
    refine ⟨.of_transcript ?_, ⟨[], ⟨_, .refl _, .nil⟩, rfl⟩, ?_⟩
    · dsimp only [s, system, partnerOf, partner, person, catalog, row, answer, values]
      rfl
    · rw [hwrites]
      exact ⟨_, rfl, _, answers_keys [.str "p3"] rfl (.cons rfl .nil), rfl⟩
  · intro sites team person owner catalog answer values t v
    constructor
    · intro row other T
      have hwrites : Exchange.writes (t row) =
          [.update "PERSON" [⟨"updated_at", .now⟩] [columnIs "uuid" (.str "p1")],
            .update "SITE" [setTo "owner" (.str "a")] [columnIs "uuid" (.str "s1")]] := by
        dsimp only [t, s, system, sites, team, person, owner, catalog, row, answer, values]
        rfl
      refine ⟨.of_transcript ?_, ?_, ?_⟩
      · dsimp only [s, system, sites, team, person, owner, catalog, row, answer, values]
        rfl
      · rintro ⟨a, -, x, hx, hbase, -⟩
        cases List.mem_singleton.1 hx
        cases hbase
      · rw [hwrites]
        exact ⟨_, rfl, _, List.mem_cons_of_mem _ List.mem_cons_self, rfl, "a", rfl, _,
          List.mem_singleton.2 rfl, rfl, rfl⟩
    · intro row T b
      have hwrites : Exchange.writes (t row) =
          [.update "PERSON" [⟨"updated_at", .now⟩] [columnIs "uuid" (.str "p1")],
            .update "SITE" [setTo "owner" (.str "NOW()")] [columnIs "uuid" (.str "s1")]] := by
        dsimp only [t, s, system, sites, team, person, owner, catalog, row, answer, values]
        rfl
      refine ⟨.of_transcript ?_, ⟨[], ⟨_, .refl _, .nil⟩, rfl⟩, ?_⟩
      · dsimp only [s, system, sites, team, person, owner, catalog, row, answer, values]
        rfl
      · rw [hwrites]
        exact ⟨_, rfl, [], ⟨_, .refl _, .nil⟩, rfl⟩

end Session

end CatalogQuery
