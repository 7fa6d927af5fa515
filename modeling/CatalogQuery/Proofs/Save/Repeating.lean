import CatalogQuery.Proofs.Save.Data
import CatalogQuery.Proofs.Save.SavedBack

/-!
# Repeating an update

An update writes the links that differ from the wanted ones, so an update that is sent again finds what
the first one left. Main statement: it writes nothing for a link unless one of the keys that were new is
blank or a truth value, and then it writes something each time.
-/

namespace CatalogQuery

open Sql

namespace Write

/-! ## Keys that come back -/

/-- Whether a value is read back as a key with the text that it was written with. A blank value is not
taken for a key when it is read, and a truth value is read as a number. -/
def comesBack : Json → Bool
  | .bool _ => false
  | k => !k.isBlank

/-- The text or number as which the database holds a value. -/
def held : Json → Json
  | .bool flag => .str (if flag then "1" else "0")
  | .arr items => .str (Json.arr items).text
  | .obj members => .str (Json.obj members).text
  | k => k

/-- The values with their keys as the database holds them, less the blank ones. -/
def LinkValues.asHeld (v : LinkValues) : LinkValues :=
  { v with keys := (v.keys.filter (!·.isBlank)).map held }

theorem value_held (E : Engine) (k : Json) : E.value (held k) = E.value k := by
  cases k with
  | bool flag => cases flag <;> rfl
  | arr items =>
    have hcall := isCall_text (v := .arr items) (.inl rfl)
    simp [held, Engine.value, hcall]
  | obj members =>
    have hcall := isCall_text (v := .obj members) (.inr ⟨members, rfl⟩)
    simp [held, Engine.value, hcall]
  | null | str | num => rfl

theorem plain_held {k : Json} (h : comesBack k = true) : (held k).plain = k.plain := by
  cases k with
  | bool => cases h
  | null | str | num | arr | obj => rfl

theorem isBlank_of_comesBack {k : Json} (h : comesBack k = true) : k.isBlank = false := by
  cases k with
  | bool => cases h
  | null | str | num | arr | obj => simpa [comesBack] using h

/-- A truth value is held as a number, and what is held as its text is no truth value. -/
theorem plain_of_plain_held {k : Json} {flag : Bool} (hk : k.isBlank = false)
    (h : (held k).plain = (Json.bool flag).plain) :
    comesBack k = true ∧ k.plain = (Json.bool flag).plain := by
  cases k with
  | bool other => cases flag <;> cases other <;> exact absurd h (by decide)
  | null | str | num | arr | obj => exact ⟨by simpa [comesBack] using hk, h⟩

/-! ## What relinking leaves -/

section Left

variable {v : LinkValues} {stored : List Json}

/-- Whether a text is that of a key which relinking leaves: one that was there and stays, or one that was
missing, as the database holds it. -/
def IsLeft (v : LinkValues) (stored : List Json) (t : String) : Prop :=
  t ∈ ((without v.keys stored).map held).map Json.plain ∨
    (Alone v → without v.keys stored = []) ∧
      t ∈ stored.map Json.plain ∧ t ∉ (without stored v.keys).map Json.plain

/-- The wanted keys are left if those that were missing come back. -/
theorem isLeft_iff_of_comesBack (halone : Alone v → v.keys.length ≤ 1)
    (hback : ∀ k ∈ without v.keys stored, comesBack k = true) {t : String} :
    IsLeft v stored t ↔ t ∈ v.keys.map Json.plain := by
  have hheld : ((without v.keys stored).map held).map Json.plain =
      (without v.keys stored).map Json.plain := by
    rw [List.map_map]
    exact List.map_congr_left fun k hk => plain_held (hback k hk)
  rw [IsLeft, hheld]
  exact mem_wanted_iff halone

/-- A key that was missing comes back if its text is left. -/
theorem comesBack_of_isLeft (hdistinct : (v.keys.map Json.plain).Nodup)
    (hthere : ∀ k ∈ v.keys, k.isBlank = false) {k : Json} (hk : k ∈ without v.keys stored)
    (h : IsLeft v stored k.plain) : comesBack k = true := by
  have hwanted : k ∈ v.keys := List.mem_of_mem_filter hk
  have hmissing : k.plain ∉ stored.map Json.plain := by
    simpa [without] using (List.mem_filter.1 hk).2
  cases k with
  | bool flag =>
    -- The text is that of no key that was there, and of no other key that was missing.
    obtain ⟨j, hj, hplain⟩ : ∃ j ∈ without v.keys stored,
        (held j).plain = (Json.bool flag).plain := by
      rcases h with h | ⟨-, h, -⟩
      · simpa using h
      · exact absurd h hmissing
    have hj := List.mem_of_mem_filter hj
    obtain ⟨hback, hplain⟩ := plain_of_plain_held (hthere j hj) hplain
    cases List.inj_on_of_nodup_map hdistinct hj hwanted hplain
    cases hback
  | null | str | num | arr | obj => simpa [comesBack] using hthere _ hwanted

end Left

/-! ## Statements with other keys of the same value -/

section

variable {E : Engine} {T T' : Tables} {b : Base} {v : LinkValues} {stored : List Json}

/-- Statements that relate a record do the same for all keys that the database holds alike. -/
theorem run_relate_congr {k k' : Json} (h : E.value k' = E.value k) (l : Link) (keyColumn : String) :
    E.run T (relate b l keyColumn k') = E.run T (relate b l keyColumn k) := by
  rw [relate, relate]
  cases l.keys with
  | own foreign target =>
    dsimp only
    split <;> simp [Engine.run, Engine.exec, Engine.assign, Engine.eval, Engine.holds, setTo,
      columnIs, columnAmong, h]
  | linked foreign source =>
    dsimp only
    split <;> simp [Engine.run, Engine.exec, Engine.assign, Engine.eval, Engine.holds, setTo,
      columnIs, h]
  | junction table sourceColumn targetColumn source target =>
    simp [Engine.run, Engine.exec, Engine.assign, Engine.eval, setTo, h]

theorem run_relates_held (l : Link) (keyColumn : String) (ks : List Json) :
    E.run T ((ks.map held).flatMap (relate b l keyColumn)) =
      E.run T (ks.flatMap (relate b l keyColumn)) := by
  induction ks generalizing T with
  | nil => rfl
  | cons k rest ih =>
    rw [List.map_cons, List.flatMap_cons, List.flatMap_cons, Engine.run_append, Engine.run_append,
      run_relate_congr (value_held E k)]
    simp only [ih]

/-- Relinking leaves a value, of the keys that it had, with the wanted ones, and gives it those that were
missing, as the database holds them. -/
theorem relink_pairs_held (hapart : Apart b.entity v) (hbase : IsKey (b.linking v.link))
    (hself : ∀ foreign target, v.link.keys = .own foreign target →
      isSelfPair b.entity v.link = true → IsKey (b.valueOf target))
    (hready : Ready T b v.asHeld) (hstored : ∀ k ∈ stored, IsKey k)
    (hwanted : ∀ k ∈ v.asHeld.keys, IsKey k) (hthere : ∀ k ∈ v.keys, k.isBlank = false)
    (halone : Alone v → v.keys.length ≤ 1)
    (hcurrent : ∀ t, t ≠ "" → ((placeOf b.entity v).Pairs T (b.linking v.link).plain t ↔
      t ∈ stored.map Json.plain))
    (h : E.run T (relink b v stored) = some T') {t : String} (ht : t ≠ "") :
    (placeOf b.entity v).Pairs T' (b.linking v.link).plain t ↔ IsLeft v stored t := by
  rw [relink, Engine.run_append] at h
  obtain ⟨T₁, hun, hre⟩ := Option.bind_eq_some_iff.1 h
  rw [← run_relates_held] at hre
  have htouches : ∀ w ∈ (without stored v.keys).flatMap (unrelate b v.link v.keyColumn),
      Touches b.entity v w := fun w hw => touches_relink b v stored w (List.mem_append_left _ hw)
  have hmissing : ∀ k ∈ (without v.keys stored).map held, k ∈ v.asHeld.keys := by
    intro k hk
    obtain ⟨j, hj, rfl⟩ := List.mem_map.1 hk
    have hj := List.mem_of_mem_filter hj
    exact List.mem_map_of_mem (List.mem_filter.2 ⟨hj, by simp [hthere j hj]⟩)
  obtain ⟨hown, -⟩ := unrelates_lose (v := v.asHeld) hapart hbase hself hready
    (fun k hk => hstored k (List.mem_of_mem_filter hk)) hun
  obtain ⟨hown', -⟩ := relates_gain (v := v.asHeld) hapart hbase hself
    (hready.of_touches (v := v.asHeld) hapart htouches hun) (fun k hk => hwanted k (hmissing k hk))
    hmissing (fun ha => by
      rw [List.length_map]
      exact Nat.le_trans (List.length_filter_le _ _) (halone ha)) hre
  refine (hown' t).trans ?_
  rw [IsLeft, List.map_eq_nil_iff, hown t]
  exact or_congr_right (and_congr_right fun _ => and_congr_left fun _ => hcurrent t ht)

/-- What is read of a link after an update has written it: of the keys that were read before the wanted
ones, and those that were missing as the database holds them. -/
theorem mem_current_again_iff {before after : List Sql.Write} (h : Relinkable T b v.asHeld stored)
    (hcurrent : CurrentIn E T b v stored) (halone : Alone v → v.keys.length ≤ 1)
    (hothers : ∀ w ∈ before ++ after, LeavesAlone b.entity v w)
    (hrun : E.run T (before ++ relink b v stored ++ after) = some T')
    (hthere : ∀ k ∈ v.keys, k.isBlank = false) {b' : Base} {stored' : List Json}
    (hcurrent' : CurrentIn E T' b' v stored') (hentity : b'.entity = b.entity)
    (hkey : b'.key.plain = b.key.plain) (hlinking : IsKey (b'.linking v.link))
    (hfound : Found T' b' v.link) {t : String} (ht : t ≠ "") :
    t ∈ stored'.map Json.plain ↔ IsLeft v stored t := by
  have hvalue (r : Stored) (hr : r ∈ T' b.entity.table)
      (hrow : r b.entity.keyColumn = some b.key.plain) :=
    h.found.storedValue_of_run (v := v) h.apart hothers hrun hr hrow
  rw [← hcurrent'.pairs_iff_again hentity hkey hlinking hfound hvalue ht]
  obtain ⟨T₁, T₂, hrelink, ⟨hplace₁, -⟩, hplace₂, -⟩ := exists_relink_of_run hothers hrun
  have hready₁ : Ready T₁ b v.asHeld := h.ready.of_agree (hplace₁.mono fun c hc =>
    List.mem_cons_of_mem _ (List.mem_cons_of_mem _ hc))
  refine (Place.pairs_congr hplace₂).trans ?_
  exact relink_pairs_held (v := v) h.apart h.linking h.partner hready₁ h.held h.wanted hthere halone
    (fun t ht => (Place.pairs_congr hplace₁).trans (hcurrent.pairs_iff h.found h.linking ht))
    hrelink ht

/-- A link that an update has written is left alone when the update is sent again, unless a key that was
missing does not come back. -/
theorem relink_again_eq_nil_iff {before after : List Sql.Write}
    (h : Relinkable T b v.asHeld stored) (hcurrent : CurrentIn E T b v stored)
    (hdistinct : (v.keys.map Json.plain).Nodup) (halone : Alone v → v.keys.length ≤ 1)
    (hothers : ∀ w ∈ before ++ after, LeavesAlone b.entity v w)
    (hrun : E.run T (before ++ relink b v stored ++ after) = some T') {b' : Base}
    {stored' : List Json} (hcurrent' : CurrentIn E T' b' v stored')
    (hentity : b'.entity = b.entity) (hkey : b'.key.plain = b.key.plain)
    (hlinking : IsKey (b'.linking v.link)) (hfound : Found T' b' v.link) :
    relink b' v stored' = [] ↔ ∀ k ∈ without v.keys stored, comesBack k = true := by
  have hmem (hthere : ∀ k ∈ v.keys, k.isBlank = false) {t : String} (ht : t ≠ "") :=
    mem_current_again_iff h hcurrent halone hothers hrun hthere hcurrent' hentity hkey hlinking
      hfound ht
  rw [relink_eq_nil_iff]
  constructor
  · intro hagree k hk
    have hthere : ∀ k ∈ v.keys, k.isBlank = false := by
      intro k hk
      obtain ⟨j, hj, hplain⟩ := List.mem_map.1 ((hagree k.plain).1 (List.mem_map_of_mem hk))
      exact Json.plain_ne_empty_iff.1 (hplain ▸ hcurrent'.plain_ne_empty j hj)
    have hwanted : k ∈ v.keys := List.mem_of_mem_filter hk
    refine comesBack_of_isLeft hdistinct hthere hk ?_
    rw [← hmem hthere (Json.plain_ne_empty (hthere k hwanted))]
    exact (hagree _).1 (List.mem_map_of_mem hwanted)
  · intro hback
    have hthere : ∀ k ∈ v.keys, k.isBlank = false := by
      intro k hk
      refine Json.plain_ne_empty_iff.1 fun hplain => ?_
      -- No key that was read is blank, so a blank one would have been missing.
      have hmissing : k ∈ without v.keys stored := by
        refine List.mem_filter.2 ⟨hk, ?_⟩
        simpa [hplain] using fun j hj => hcurrent.plain_ne_empty j hj
      exact Json.plain_ne_empty (isBlank_of_comesBack (hback k hmissing)) hplain
    refine mem_texts_iff (fun k hk => Json.plain_ne_empty (hthere k hk)) hcurrent'.plain_ne_empty
      fun t ht => ?_
    rw [hmem hthere ht, isLeft_iff_of_comesBack halone hback]

end

end Write

namespace Session

open Write

variable {s : Session} {entity : String} {key values : Json} {caller : Caller}
  {t t' : List Exchange} {r : Result SaveOutcome}

/-- Whether a run of an update goes by these data as far as it gets: whatever it writes begins what there
is to write, and is all of that if the update succeeds. -/
structure Update.Begun (u : Update) (s : Session) (entity : String) (key values : Json)
    (caller : Caller) (t : List Exchange) (r : Result SaveOutcome) : Prop where
  object : u.catalog.entity entity = .ok u.entity
  members : inputMembers values = .ok u.input
  prepare : prepare s.settings u.catalog u.entity u.links u.input false = .ok u.prepared
  accepted : u.prepared.errors = []
  requests : ∃ (links : Links) (found read written : List Exchange),
    t = ⟨.catalog, u.catalog⟩ :: ⟨.links, links⟩ :: ⟨.consult entity, ()⟩ ::
      (found ++ read ++ written) ∧
    links entity = .ok u.links ∧
    (s.lockedRow u.entity key caller entity).Runs found (.ok u.base) ∧
    (u.prepared.links.mapM (s.currentKeys u.base)).Runs read (.ok u.stored)
  starts : Exchange.writes t <+: u.rowWrites s.settings ++ u.relinks u.pairs
  all : ∀ outcome, r = .ok outcome →
    Exchange.writes t = u.rowWrites s.settings ++ u.relinks u.pairs

/-- A successful update gets to the end of its data. -/
theorem Update.Of.begun {u : Update} (h : u.Of s entity key values caller t) :
    u.Begun s entity key values caller t r := by
  obtain ⟨links, found, read, written, ht, hlinks, hfound, hread, -⟩ := h.requests
  exact ⟨h.object, h.members, h.prepare, h.accepted,
    ⟨links, found, read, written, ht, hlinks, hfound, hread⟩, h.writes_eq ▸ List.prefix_rfl,
    fun _ _ => h.writes_eq⟩

/-- An update writes nothing or goes by some data. -/
theorem begun_of_update (h : (s.update entity key values caller).Runs t r) :
    Exchange.writes t = [] ∨ ∃ u : Update, u.Begun s entity key values caller t r := by
  rw [update_eq] at h
  rcases Program.Runs.bind_iff.1 h with ⟨e, hplan, -⟩ | ⟨planned, written, plan, rfl, hplan, hrest⟩
  · exact .inl ((s.onlyReads_updatePlan ..).writes_eq_nil hplan)
  have hreads := (s.onlyReads_updatePlan ..).writes_eq_nil hplan
  obtain ⟨hstarts, hall⟩ := writes_of_carryOut ((s.yields_updatePlan ..).of_runs hplan) hrest
  obtain ⟨catalog, t₁, rfl, h₁⟩ := Program.Runs.catalog_bind_iff.1 hplan
  obtain ⟨e, hentity, h₂⟩ := Program.Runs.ofResult_bind_ok.1 h₁
  obtain ⟨_, t₃, map, rfl, hmap, h₃⟩ := Program.Runs.bind_ok.1 h₂
  obtain ⟨links, rfl, hlinks⟩ := Program.Runs.linksOf_iff.1 hmap
  obtain ⟨input, hinput, h₄⟩ := Program.Runs.ofResult_bind_ok.1 h₃
  obtain ⟨p, hprepare, h₅⟩ := Program.Runs.ofResult_bind_ok.1 h₄
  rw [Exchange.writes_append, hreads, List.nil_append]
  split at h₅
  · cases h₅.2
    exact .inl (List.prefix_nil.1 hstarts)
  rename_i herrors
  obtain ⟨found, t₆, base, rfl, hfound, h₆⟩ := Program.Runs.bind_ok.1 h₅
  obtain ⟨read, t₇, stored, rfl, hread, rfl, hplanned⟩ := Program.Runs.bind_ok.1 h₆
  cases hplanned
  refine .inr ⟨⟨catalog, map, e, input, p, base, stored⟩, hentity, hinput, hprepare,
    by simpa using herrors, ⟨links, found, read, written, by simp, hlinks.symm, hfound, hread⟩, ?_, ?_⟩
  · rw [Exchange.writes_append, hreads]
    exact hstarts
  · rw [Exchange.writes_append, hreads]
    exact hall

/-- The links that an update accepts follow from the metadata and the values. -/
theorem Update.Begun.prepared_eq {u u' : Update} (h' : u'.Begun s entity key values caller t' r)
    (h : u.Of s entity key values caller t) (hcatalog : u'.catalog = u.catalog)
    (hlinks : u'.links = u.links) : u'.entity = u.entity ∧ u'.prepared = u.prepared := by
  have hobject := h'.object
  rw [hcatalog, h.object] at hobject
  have hentity : u'.entity = u.entity := (Except.ok.inj hobject).symm
  have hprepare := h'.prepare
  rw [hcatalog, hlinks, hentity, Except.ok.inj (h'.members.symm.trans h.members), h.prepare]
    at hprepare
  exact ⟨hentity, (Except.ok.inj hprepare).symm⟩

/-- An update that has succeeded is sent again, and finds the record as the first one left it. Of each
link that is given a value nothing is written again just if all keys that were missing at first come back
as they were written. With a blank key or a truth value among them, the link is written once more. The
conditions are those of relinking, for the keys as the database holds them. -/
theorem update_again {row : Row}
    (h : (s.update entity key values caller).Runs t (.ok (.saved row)))
    (h' : (s.update entity key values caller).Runs t' r) :
    (∃ u : Update, u.Of s entity key values caller t) ∧
    (Exchange.writes t' = [] ∨ ∃ u' : Update, u'.Begun s entity key values caller t' r) ∧
    ∀ u u' : Update, u.Of s entity key values caller t →
      u'.Begun s entity key values caller t' r → u'.catalog = u.catalog → u'.links = u.links →
    ∀ f ∈ u.entity.fields, ∀ (c : Connection) (l : Link) (x : Json),
      f.connection? = some c → f.multilingual = false → supplied u.input f = some x →
      u.links.get f.id = some l → (Link.ofField s.settings u.catalog u.entity f c).1 = some l →
    ∃ target stored before after stored' before' after', u.catalog.entity l.target = .ok target ∧
      let v := wantedOf l target x
      u.pairs = before ++ (v, stored) :: after ∧ u'.pairs = before' ++ (v, stored') :: after' ∧
      ∀ (E : Engine) (T T' : Tables), E.run T (Exchange.writes t) = some T' →
        (∀ statement, currentSelect u.base v = some statement → ∀ channel rows,
          ⟨.fetch channel statement, .ok rows⟩ ∈ t → E.Answers T statement rows) →
        (∀ statement, currentSelect u'.base v = some statement → ∀ channel rows,
          ⟨.fetch channel statement, .ok rows⟩ ∈ t' → E.Answers T' statement rows) →
        Relinkable T u.base v.asHeld stored →
        (∀ w ∈ u.rowWrites s.settings ++ u.relinks before ++ u.relinks after,
          LeavesAlone u.entity v w) →
        u'.base.key.plain = u.base.key.plain → IsKey (u'.base.linking l) → Found T' u'.base l →
        (relink u'.base v stored' = [] ↔ ∀ k ∈ without v.keys stored, comesBack k = true) := by
  refine ⟨exists_of_update h, begun_of_update h', ?_⟩
  intro u u' hu hu' hcatalog hlinks f hf c l x hc hmulti hx hl hlink
  -- Both updates come to the same value of the link, and each has read the keys of it.
  obtain ⟨hentity, hprepared⟩ := hu'.prepared_eq hu hcatalog hlinks
  obtain ⟨target, htarget, hcheck, hmem⟩ :=
    mem_links_of_prepare hu.prepare hu.accepted hf hc hmulti hx hl
  obtain ⟨links, found, read, written, ht, -, -, hread, -⟩ := hu.requests
  obtain ⟨links', found', read', written', ht', -, hfound', hread'⟩ := hu'.requests
  obtain ⟨stored, before, after, hsplit, w, hw, hsub⟩ := exists_pair hread hmem
  obtain ⟨stored', before', after', hsplit', w', hw', hsub'⟩ :=
    exists_pair hread' (hprepared.symm ▸ hmem)
  refine ⟨target, stored, before, after, stored', before', after', htarget, hsplit, hsplit', ?_⟩
  intro E T T' hrun hanswers hanswers' hrelinkable hothers hkey hlinking hfound
  rw [hu.writes_split hsplit] at hrun
  rw [← hu.entity_eq] at hothers
  have hcurrent := currentIn_of_runs hw fun statement hselect channel rows hrow =>
    hanswers statement hselect channel rows (by simp [ht, hsub hrow])
  have hcurrent' := currentIn_of_runs hw' fun statement hselect channel rows hrow =>
    hanswers' statement hselect channel rows (by simp [ht', hsub' hrow])
  refine relink_again_eq_nil_iff hrelinkable hcurrent (Json.nodup_map_distinct _ _) (fun halone => ?_)
    hothers hrun hcurrent' ?_ hkey hlinking hfound
  · exact Nat.le_trans (Json.length_distinct_le _ _)
      (length_linkedKeys_le_one hc (here_of_alone hlink halone) hcheck _)
  · rw [entity_of_lockedRow hfound', hentity, hu.entity_eq]

/-- Of the tags of a note one is taken away, one stays and one is new, and then they are given once
more. -/
theorem update_again_tags :
    let s : Session := ⟨{}, {}, .tenant⟩
    let system : Caller := ⟨none, "en", true⟩
    let f := Field.new "f" "tags" (.connection (.between "tag" .many .many))
    let note := Entity.new "note" "Note" "NOTE" [f]
    let tag := Entity.new "tag" "Tag" "TAG" []
    let catalog : Catalog := ⟨[note, tag], [], []⟩
    let junction := "JOINMN_NOTE_TAG_tags"
    let l : Link := ⟨"f", "tags", "tags__relation", .manyToMany, "tag", "TAG", true,
      .junction junction "NOTE" "TAG" "uuid" "uuid"⟩
    let row : Row := [("uuid", .str "n1")]
    let wanted : Json := .arr [.str "t2", .str "t3"]
    let v := wantedOf l tag wanted
    let answer (stored : List Json) :=
      Request.steady catalog (LinkMap.ofCatalog {} catalog) fun statement =>
        if statement.source.table = junction then stored.map fun k => [("__key", k)] else [row]
    let update := s.update "note" (.str "n1") (.obj [("tags", wanted)]) system
    let t (stored : List Json) := (update.transcript (answer stored)).1
    let first : List Json := [.str "t1", .str "t2"]
    let second : List Json := [.str "t2", .str "t3"]
    let E : Engine := ⟨fun _ => none, fun _ => none, fun _ _ => false⟩
    let T := Tables.ofCells [("NOTE", [[("uuid", "n1")]]),
      ("TAG", [[("uuid", "t1")], [("uuid", "t2")], [("uuid", "t3")]]),
      (junction, [[("NOTE", "n1"), ("TAG", "t1")], [("NOTE", "n1"), ("TAG", "t2")]])]
    let b : Base := ⟨note, row, .str "n1"⟩
    update.Runs (t first) (.ok (.saved row)) ∧ update.Runs (t second) (.ok (.saved row)) ∧
      Exchange.writes (t first) =
        [.update "NOTE" [⟨"updated_at", .now⟩] [columnIs "uuid" (.str "n1")],
          .delete junction [columnIs "NOTE" (.str "n1"), columnIs "TAG" (.str "t1")],
          .insertPair junction (setTo "NOTE" (.str "n1")) (setTo "TAG" (.str "t3"))] ∧
      ∃ T', E.run T (Exchange.writes (t first)) = some T' ∧ Found T' b l ∧
        CurrentIn E T' b v second ∧ (∀ k ∈ without v.keys first, comesBack k = true) ∧
        relink b v second = [] := by
  intro s system f note tag catalog junction l row wanted v answer update t first second E T b
  have hruns (stored : List Json) (h : (update.transcript (answer stored)).2 = .ok (.saved row)) :
      update.Runs (t stored) (.ok (.saved row)) ∧
        ∀ x ∈ t stored, x.answer = answer stored x.request :=
    Program.Runs.iff_transcript.2 (Prod.ext rfl h)
  obtain ⟨hrun, hanswers⟩ := hruns first (by
    dsimp only [s, system, f, note, tag, catalog, row, wanted, first, update, answer, junction]
    rfl)
  obtain ⟨hrun', hanswers'⟩ := hruns second (by
    dsimp only [s, system, f, note, tag, catalog, row, wanted, second, update, answer, junction]
    rfl)
  have hwrites : Exchange.writes (t first) =
      [.update "NOTE" [⟨"updated_at", .now⟩] [columnIs "uuid" (.str "n1")],
        .delete junction [columnIs "NOTE" (.str "n1"), columnIs "TAG" (.str "t1")],
        .insertPair junction (setTo "NOTE" (.str "n1")) (setTo "TAG" (.str "t3"))] := by
    dsimp only [t, s, system, f, note, tag, catalog, row, wanted, first, update, answer, junction]
    rfl
  -- What the database has, before the first update and after it.
  have hread : E.Answers T (.plain false [.named (.bare "TAG") keyAlias] ⟨junction, none, []⟩
      (some (columnIs "NOTE" (.str "n1")))) (first.map fun k => [("__key", k)]) :=
    answers_keys first rfl (.cons rfl (.cons rfl .nil))
  obtain ⟨T', hT, hfound, hread'⟩ : ∃ T', E.run T (Exchange.writes (t first)) = some T' ∧
      Found T' b l ∧ E.Answers T' (.plain false [.named (.bare "TAG") keyAlias] ⟨junction, none, []⟩
        (some (columnIs "NOTE" (.str "n1")))) (second.map fun k => [("__key", k)]) := by
    rw [hwrites]
    refine ⟨_, rfl, ⟨⟨_, List.mem_singleton.2 rfl, rfl⟩, ?_⟩,
      answers_keys second rfl (.cons rfl (.cons rfl .nil))⟩
    intro r hr _ c hc
    cases List.mem_singleton.1 hr
    cases List.mem_singleton.1 hc
    rfl
  have hback : ∀ k ∈ without v.keys first, comesBack k = true := by
    have hmissing : without v.keys first = [.str "t3"] := rfl
    rw [hmissing, List.forall_mem_singleton]
    rfl
  refine ⟨hrun, hrun', hwrites, T', hT, hfound, ⟨_, hread', rfl⟩, hback, ?_⟩
  have hrelinkable : Relinkable T b v.asHeld first := by
    have hkeys : v.asHeld.keys = [.str "t2", .str "t3"] := rfl
    refine ⟨fun h => absurd h (by decide), ⟨⟨_, List.mem_singleton.2 rfl, rfl⟩, ?_⟩, ?_, ?_, ?_,
      ⟨by decide, by decide⟩, fun _ _ h => by cases h⟩
    · intro r hr _ c hc
      cases List.mem_singleton.1 hr
      cases List.mem_singleton.1 hc
      rfl
    · rw [hkeys]
      exact List.forall_mem_cons.2 ⟨⟨_, List.mem_cons_of_mem _ List.mem_cons_self, rfl⟩,
        List.forall_mem_singleton.2
          ⟨_, List.mem_cons_of_mem _ (List.mem_cons_of_mem _ List.mem_cons_self), rfl⟩⟩
    · rw [hkeys]
      exact List.forall_mem_cons.2
        ⟨⟨by decide, by decide⟩, List.forall_mem_singleton.2 ⟨by decide, by decide⟩⟩
    · exact List.forall_mem_cons.2
        ⟨⟨by decide, by decide⟩, List.forall_mem_singleton.2 ⟨by decide, by decide⟩⟩
  have hothers : ∀ w ∈ [Sql.Write.update "NOTE" [⟨"updated_at", .now⟩]
      [columnIs "uuid" (.str "n1")]], LeavesAlone note v w := by
    rw [List.forall_mem_singleton]
    refine ⟨fun h => absurd h (by decide), fun _ => ?_⟩
    rw [List.forall_mem_singleton]
    decide
  -- What the two updates go by follows from the answers.
  have hobject : catalog.entity "note" = .ok note := rfl
  have htarget : catalog.entity "tag" = .ok tag := rfl
  have hmap : LinkMap.ofCatalog {} catalog "note" = .ok ⟨"note", [l]⟩ := by
    dsimp only [catalog, note, tag, f, l, junction]
    rfl
  have hlink : (Link.ofField {} catalog note f (.between "tag" .many .many)).1 = some l := by
    dsimp only [catalog, note, tag, f, l, junction]
    rfl
  have hprepare : prepare {} catalog note ⟨"note", [l]⟩ [("tags", wanted)] false =
      .ok ⟨[], [v], []⟩ := by
    dsimp only [catalog, note, tag, f, l, v, junction, wanted]
    rfl
  have hdata {stored : List Json} {u : Update}
      (hanswers : ∀ x ∈ t stored, x.answer = answer stored x.request)
      (hu : u.Of s "note" (.str "n1") (.obj [("tags", wanted)]) system (t stored))
      (hbase : ((s.lockedRow note (.str "n1") system "note").transcript (answer stored)).2 = .ok b)
      (hstored : (([v].mapM (s.currentKeys b)).transcript (answer stored)).2 = .ok [stored]) :
      u = ⟨catalog, ⟨"note", [l]⟩, note, [("tags", wanted)], ⟨[], [v], []⟩, b, [stored]⟩ :=
    hu.eq_of_answers hanswers rfl hobject rfl hmap hprepare hbase hstored
  obtain ⟨⟨u, hu⟩, -, hagain⟩ := update_again hrun hrun'
  obtain ⟨u', hu'⟩ := exists_of_update hrun'
  have hlinked := hagain u u' hu hu'.begun
  obtain rfl := hdata hanswers hu (by
    dsimp only [s, system, answer, first, row, catalog, note, tag, f, l, junction, b]
    rfl) (by
    dsimp only [s, system, answer, first, row, catalog, note, tag, f, l, v, wanted, junction, b]
    rfl)
  obtain rfl := hdata hanswers' hu' (by
    dsimp only [s, system, answer, second, row, catalog, note, tag, f, l, junction, b]
    rfl) (by
    dsimp only [s, system, answer, second, row, catalog, note, tag, f, l, v, wanted, junction, b]
    rfl)
  obtain ⟨target, stored, before, after, stored', before', after', htarget', hpairs, hpairs', hiff⟩ :=
    hlinked rfl rfl f (List.mem_singleton.2 rfl) _ l wanted rfl rfl rfl rfl hlink
  cases htarget.symm.trans htarget'
  obtain ⟨rfl, hpair, rfl⟩ := eq_of_singleton_eq hpairs
  cases hpair
  obtain ⟨rfl, hpair', rfl⟩ := eq_of_singleton_eq hpairs'
  cases hpair'
  have hrows {held : List Json} {T : Tables} {channel : Channel} {statement : Select}
      {rows : List Row} (hanswers : ∀ x ∈ t held, x.answer = answer held x.request)
      (hread : E.Answers T (.plain false [.named (.bare "TAG") keyAlias] ⟨junction, none, []⟩
        (some (columnIs "NOTE" (.str "n1")))) (held.map fun k => [("__key", k)]))
      (hselect : currentSelect b v = some statement)
      (hmem : ⟨.fetch channel statement, .ok rows⟩ ∈ t held) : E.Answers T statement rows := by
    have hrows := hanswers _ hmem
    cases hselect
    cases (hrows : Except.ok rows = Except.ok (held.map fun k => [("__key", k)]))
    exact hread
  exact (hiff E T T' hT (fun _ hselect _ _ hmem => hrows hanswers hread hselect hmem)
    (fun _ hselect _ _ hmem => hrows hanswers' hread' hselect hmem) hrelinkable hothers rfl
    ⟨by decide, by decide⟩ hfound).2 hback

/-- What is written each time: a blank key, the key that a record does not have, and a truth value, which
is taken away before it is given again. -/
theorem update_again_blank :
    let s : Session := ⟨{}, {}, .tenant⟩
    let system : Caller := ⟨none, "en", true⟩
    let f := Field.new "f" "customer" (.connection (.between "customer" .one .many))
    let invoice := Entity.new "invoice" "Invoice" "INVOICE" [f]
    let catalog : Catalog := ⟨[invoice, .new "customer" "Customer" "CUSTOMER" []], [], []⟩
    let row (held : Json) : Row := [("customer", held), ("uuid", .str "i1")]
    let answer (held : Json) :=
      Request.steady catalog (LinkMap.ofCatalog {} catalog) fun _ => [row held]
    let l : Link := ⟨"f", "customer", "customer__relation", .oneToMany, "customer", "CUSTOMER", false,
      .own "customer" "uuid"⟩
    let E : Engine := ⟨fun _ => none, fun _ => none, fun _ _ => false⟩
    let T := Tables.ofCells [("INVOICE", [[("uuid", "i1"), ("customer", "c1")]]),
      ("CUSTOMER", [[("uuid", "c1")], [("uuid", "1")]])]
    let update (x : Json) := s.update "invoice" (.str "i1") (.obj [("customer", x)]) system
    let t (x held : Json) := ((update x).transcript (answer held)).1
    let isInvoice := columnIs "uuid" (.str "i1")
    let Repeats (x held : Json) (again : List Sql.Write) : Prop :=
      (update x).Runs (t x (.str "c1")) (.ok (.saved (row (.str "c1")))) ∧
        (update x).Runs (t x held) (.ok (.saved (row held))) ∧
        (∃ T', E.run T (Exchange.writes (t x (.str "c1"))) = some T' ∧
          Found T' ⟨invoice, row held, .str "i1"⟩ l) ∧
        Exchange.writes (t x held) =
          .update "INVOICE" [⟨"updated_at", .now⟩] [isInvoice] :: again
    Repeats (.str "") (.str "") [.update "INVOICE" [setTo "customer" (.str "")] [isInvoice]] ∧
      Repeats (.obj [("uuid", .null)]) .null
        [.update "INVOICE" [setTo "customer" .null] [isInvoice]] ∧
      Repeats (.bool true) (.str "1")
        [.update "INVOICE" [setNull "customer"] [isInvoice, columnIs "customer" (.str "1")],
          .update "INVOICE" [setTo "customer" (.bool true)] [isInvoice]] := by
  intro s system f invoice catalog row answer l E T update t isInvoice Repeats
  have hfound {T' : Tables} {held : Json} {r : Stored} (hr : T' "INVOICE" = [r])
      (hkey : r "uuid" = some "i1") (hshows : Engine.Shows (r "customer") (some held)) :
      Found T' ⟨invoice, row held, .str "i1"⟩ l := by
    refine ⟨⟨r, by simp [invoice, Entity.new, hr], hkey⟩, fun r' hr' _ c hc => ?_⟩
    have hr' : r' ∈ T' "INVOICE" := hr'
    rw [hr, List.mem_singleton] at hr'
    subst hr'
    cases List.mem_singleton.1 hc
    exact hshows
  have hrepeats {x held : Json} {first again : List Sql.Write}
      (hfirst : (update x).transcript (answer (.str "c1")) =
        (t x (.str "c1"), .ok (.saved (row (.str "c1")))))
      (hsecond : (update x).transcript (answer held) = (t x held, .ok (.saved (row held))))
      (hwrites : Exchange.writes (t x (.str "c1")) = first)
      (hrun : ∃ T' r, E.run T first = some T' ∧ T' "INVOICE" = [r] ∧ r "uuid" = some "i1" ∧
        Engine.Shows (r "customer") (some held))
      (hagain : Exchange.writes (t x held) =
        .update "INVOICE" [⟨"updated_at", .now⟩] [isInvoice] :: again) : Repeats x held again := by
    obtain ⟨T', r, hT, hr, hkey, hshows⟩ := hrun
    exact ⟨(Program.Runs.iff_transcript.2 hfirst).1, (Program.Runs.iff_transcript.2 hsecond).1,
      ⟨T', hwrites ▸ hT, hfound hr hkey hshows⟩, hagain⟩
  refine ⟨hrepeats (Prod.ext rfl ?_) (Prod.ext rfl ?_) rfl ?_ ?_,
    hrepeats (Prod.ext rfl ?_) (Prod.ext rfl ?_) rfl ?_ ?_,
    hrepeats (Prod.ext rfl ?_) (Prod.ext rfl ?_) rfl ?_ ?_⟩
  all_goals
    dsimp only [t, update, s, system, f, invoice, catalog, row, answer, isInvoice, E, T]
  all_goals first
    | rfl
    | exact ⟨_, _, rfl, rfl, rfl, rfl⟩

end Session

end CatalogQuery
