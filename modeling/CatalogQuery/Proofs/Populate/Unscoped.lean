import CatalogQuery.Proofs.Link.Rows
import CatalogQuery.Proofs.Populate.Users
import CatalogQuery.Proofs.Reduce.Granting

/-!
# Linked records are attached whoever asks

A find is narrowed to what its caller may see of the object, but the records linked to what it finds are
read without asking for scopes. Main statement: callers who find the same rows are given the same linked
records, which in a database are all those that the links lead to; a find on the linked object shows the
caller those of them only that the scopes which cover it let through.
-/

namespace CatalogQuery

open Sql

/-! ## Whole rows -/

/-- Whether a row that comes back shows a scene. -/
structure Sql.Select.Shows (D : Dialect) (T : Tables) (s : Select) (scene : Scene) (row : Row) :
    Prop where
  named : ∀ e called, .named e called ∈ s.columns →
    Engine.Shows (e.value D T scene) (Json.find called row)
  /-- Of a table whose columns are all read, those that no other takes the name of. -/
  all : ∀ table, .all table ∈ s.columns → ∀ c, (∀ e, .named e c ∉ s.columns) →
    Engine.Shows (scene table c) (Json.find c row)

/-- Whether rows answer a read without limit, in any order. -/
def Sql.Dialect.Answers (D : Dialect) (T : Tables) (s : Select) (rows : List Row) : Prop :=
  ∃ scenes : List Scene, scenes.Perm (s.scenes D T) ∧ List.Forall₂ (s.Shows D T) scenes rows

/-- A value that comes back is written like a text that is not empty if that text is stored. -/
theorem Sql.Engine.Shows.plain_iff {cell : Option String} {v : Option Json} (h : Shows cell v)
    {text : String} (htext : text ≠ "") : (∃ k, v = some k ∧ k.plain = text) ↔ cell = some text := by
  match v, h with
  | none, h =>
    have h : cell = none := h
    simp [h]
  | some .null, h =>
    have h : cell = none := h
    simpa [h, Json.plain] using htext.symm
  | some (.str s), h =>
    have h : cell = some s := h
    simp [h, Json.plain]
  | some (.num n), h =>
    have h : cell = some (Json.num n).plain := h
    simp [h]

namespace Linked

variable {D : Dialect} {T : Tables} {l : Link} {keys : List Json}

/-- The column that tells the owner of a linked record, where the record is read. -/
def ownerCell (l : Link) : Column :=
  match l.keys with
  | .own _ target => ⟨"__linked", target⟩
  | .linked foreign _ => ⟨"__linked", foreign⟩
  | .junction _ sourceColumn _ _ _ => ⟨"__j", sourceColumn⟩

theorem filter_select (l : Link) (keys : List Json) : (select l keys).1.filter =
    some (.oneOf (.column (ownerCell l)) (keys.map .value) false) := by
  rw [select, ownerCell]
  cases l.keys <;> rfl

/-- Only rows of the linked table with a key of an owner are read. -/
theorem mem_scenes_select {scene : Scene} : scene ∈ (select l keys).1.scenes D T ↔
    scene ∈ (select l keys).1.source.scenes T Scene.empty ∧
      ∃ k ∈ keys, same (scene.cell (ownerCell l)) (D.value k) = true := by
  rw [Select.scenes, List.mem_filter, filter_select, filterHolds, Predicate.truth, Truth.negated,
    if_neg (by simp), beq_iff_eq, Dialect.among_eq_true, Expr.value, List.map_map]
  refine and_congr_right fun _ => ?_
  simp only [List.mem_map, Function.comp_apply, Engine.eval, same_eq_true]
  constructor
  · rintro ⟨text, hcell, k, hk, hvalue⟩
    exact ⟨k, hk, text, hcell, hvalue⟩
  · rintro ⟨k, hk, text, hcell, hvalue⟩
    exact ⟨text, hcell, k, hk, hvalue⟩

/-- The rows that are read with a key are those that a link leads to from a row with the key. -/
theorem exists_source_scene {key : Option String} {r : Stored} :
    (∃ scene ∈ (select l keys).1.source.scenes T Scene.empty, scene "__linked" = r ∧
      same (scene.cell (ownerCell l)) key = true) ↔ r ∈ l.rows T fun _ => key := by
  cases hkeys : l.keys with
  | own foreign target | linked foreign source =>
    simp only [select, ownerCell, Link.rows, hkeys, Select.plain, Link.source_scenes_single,
      Option.getD_some, List.mem_map, List.mem_filter, exists_exists_and_eq_and, Scene.cell,
      Scene.add_self]
    constructor
    · rintro ⟨_, hr, rfl, hsame⟩
      exact ⟨hr, hsame⟩
    · rintro ⟨hr, hsame⟩
      exact ⟨r, hr, rfl, hsame⟩
  | junction table sourceColumn targetColumn source target =>
    have hne : "__linked" ≠ "__j" := by decide
    simp only [select, ownerCell, Link.rows, hkeys, Select.plain]
    rw [← List.nil_append [Joined.mk _ _ _ _], Link.source_scenes_concat, Link.source_scenes_single]
    simp only [Option.getD_some, Link.joined_scenes_inner, List.mem_flatMap, List.mem_map,
      List.mem_filter, exists_exists_and_eq_and, Bool.and_eq_true]
    constructor
    · rintro ⟨_, ⟨r', hr', ⟨j, hj, rfl⟩, hon⟩, rfl, hsame⟩
      simp only [Scene.add_of_ne _ hne, Scene.add_self, ColumnPair.holds, Scene.cell] at hon hsame ⊢
      exact ⟨j, hj, hr', by rwa [same_comm], hsame⟩
    · rintro ⟨j, hj, hr, hon, hsame⟩
      refine ⟨_, ⟨r, hr, ⟨j, hj, rfl⟩, ?_⟩, ?_, ?_⟩
      · simpa only [Scene.add_of_ne _ hne, Scene.add_self, ColumnPair.holds, Scene.cell, same_comm]
          using hon
      · rw [Scene.add_of_ne _ hne, Scene.add_self]
      · simpa only [Scene.add_self, Scene.cell] using hsame

theorem shows_ownerCell {scene : Scene} {record : Row}
    (h : (select l keys).1.Shows D T scene record) :
    Engine.Shows (scene.cell (ownerCell l)) (Json.find (groupColumn l) record) := by
  cases hkeys : l.keys with
  | own foreign target | linked foreign source =>
    simp only [ownerCell, groupColumn, hkeys]
    refine h.all "__linked" ?_ _ ?_ <;> simp [select, hkeys, Select.plain]
  | junction table sourceColumn targetColumn source target =>
    simp only [ownerCell, groupColumn, hkeys]
    refine h.named (.column ⟨"__j", sourceColumn⟩) ownerColumn ?_
    simp [select, hkeys, Select.plain]

/-- Whether a record that was read shows a row of the linked table. -/
def ShowsRow (r : Stored) (record : Row) : Prop :=
  ∀ c, c ≠ ownerColumn → Engine.Shows (r c) (Json.find c record)

theorem showsRow {scene : Scene} {record : Row} (h : (select l keys).1.Shows D T scene record) :
    ShowsRow (scene "__linked") record := by
  intro c hc
  cases hkeys : l.keys with
  | own foreign target | linked foreign source =>
    refine h.all "__linked" ?_ c ?_ <;> simp [select, hkeys, Select.plain]
  | junction table sourceColumn targetColumn source target =>
    refine h.all "__linked" ?_ c ?_ <;> simp [select, hkeys, Select.plain, hc]

theorem carries_iff {scene : Scene} {record row : Row} {v : Json}
    (h : (select l keys).1.Shows D T scene record) (hv : Json.find l.keys.baseColumn row = some v)
    (hblank : v.isBlank = false) :
    carries l row record = true ↔ scene.cell (ownerCell l) = some v.plain := by
  rw [← (shows_ownerCell h).plain_iff (Json.plain_ne_empty hblank), carries, hv]
  cases Json.find (groupColumn l) record with
  | none => simp
  | some k => simp [hblank]

theorem exists_ownerKey {rows : List Row} {column : String} {row : Row} {v : Json} (hrow : row ∈ rows)
    (hv : Json.find column row = some v) (hblank : v.isBlank = false) :
    ∃ k ∈ ownerKeys rows column, k.plain = v.plain := by
  rw [← List.mem_map, ownerKeys, Json.mem_map_distinct]
  refine ⟨List.not_mem_nil, List.mem_map_of_mem (List.mem_filter.2 ⟨?_, by simp [hblank]⟩)⟩
  exact List.mem_filterMap.2 ⟨row, hrow, hv⟩

/-- Whether the records that were fetched for a link are, as far as they are handed to a row with a
key, those that the link leads to from the row. -/
structure Serves (T : Tables) (l : Link) (fetched : List Row) (row : Row) (key : Json) : Prop where
  sound : ∀ record ∈ fetched, carries l row record = true →
    ∃ r ∈ l.rows T fun _ => some key.plain, ShowsRow r record
  complete : ∀ r ∈ l.rows T fun _ => some key.plain,
    ∃ record ∈ fetched, carries l row record = true ∧ ShowsRow r record

/-- What is read for some rows serves each of them. -/
theorem serves_of_answers {rows fetched : List Row}
    (h : D.Answers T (select l (ownerKeys rows l.keys.baseColumn)).1 fetched)
    (hliteral : ∀ k ∈ ownerKeys rows l.keys.baseColumn, IsLiteral k) {row : Row} (hrow : row ∈ rows)
    {key : Json} (hkey : Json.find l.keys.baseColumn row = some key) (hblank : key.isBlank = false) :
    Serves T l fetched row key := by
  obtain ⟨scenes, hperm, hshows⟩ := h
  constructor
  · intro record hrecord hcarries
    obtain ⟨scene, hscene, hshown⟩ := exists_of_forall₂ hshows.flip hrecord
    rw [carries_iff hshown hkey hblank] at hcarries
    rw [hperm.mem_iff, mem_scenes_select] at hscene
    refine ⟨scene "__linked", exists_source_scene.1 ⟨scene, hscene.1, rfl, ?_⟩, showsRow hshown⟩
    rw [hcarries]
    exact same_eq_true.2 ⟨_, rfl, rfl⟩
  · intro r hr
    obtain ⟨scene, hscene, rfl, hsame⟩ := exists_source_scene.2 hr
    obtain ⟨k, hk, hplain⟩ := exists_ownerKey hrow hkey hblank
    have hfound : scene ∈ (select l (ownerKeys rows l.keys.baseColumn)).1.scenes D T := by
      refine mem_scenes_select.2 ⟨hscene, k, hk, ?_⟩
      rwa [(hliteral k hk).value, hplain]
    obtain ⟨record, hrecord, hshown⟩ := exists_of_forall₂ hshows (hperm.mem_iff.2 hfound)
    obtain ⟨_, hcell, hvalue⟩ := same_eq_true.1 hsame
    cases hvalue
    exact ⟨record, hrecord, (carries_iff hshown hkey hblank).2 hcell, showsRow hshown⟩

/-- Whether reads are answered with what the tables hold. -/
def Answered (D : Dialect) (T : Tables) (t : List Exchange) : Prop :=
  ∀ channel statement rows, ⟨.fetch channel statement, .ok rows⟩ ∈ t → D.Answers T statement rows

/-- Whether the reads for a link are answered with what the tables hold. -/
def AnsweredFor (D : Dialect) (T : Tables) (l : Link) (t : List Exchange) : Prop :=
  ∀ channel keys rows, ⟨.fetch channel (select l keys).1, .ok rows⟩ ∈ t →
    D.Answers T (select l keys).1 rows

theorem Answered.answeredFor {t : List Exchange} (h : Answered D T t) (l : Link) :
    AnsweredFor D T l t := fun channel keys => h channel (select l keys).1

/-- Whether rows have been given, under the name of a link, the records that the link leads to from each
of those with a key. The records are cut down as asked for, and only users look different in them. -/
def Attached (s : Session) (target : Entity) (minimal : Bool) (T : Tables) (l : Link)
    (found rows : List Row) : Prop :=
  ∃ (fetched : List Row) (name : Row → Row),
    (∀ c, c ∉ userColumns target → ∀ record, Json.find c (name record) = Json.find c record) ∧
    List.Forall₂ (fun row row' => Json.find l.relation row' = some (joined l fetched
      (fun record => name (shape s.settings target l minimal (Json.erase ownerColumn record))) row))
      found rows ∧
    ∀ row ∈ found, ∀ key, Json.find l.keys.baseColumn row = some key → key.isBlank = false →
      Serves T l fetched row key

theorem attached_of_batch {s : Session} {catalog : Catalog} {target : Entity}
    {found rows fetched : List Row} {minimal : Bool} {t : List Exchange} {dress : Row → Row}
    (h : Batch s catalog found minimal l t fetched dress)
    (hjoined : List.Forall₂ (fun row row' =>
      Json.find l.relation row' = some (joined l fetched dress row)) found rows)
    (htarget : catalog.entity? l.target = some target) (hanswered : AnsweredFor D T l t)
    (hliteral : ∀ k ∈ ownerKeys found l.keys.baseColumn, IsLiteral k) :
    Attached s target minimal T l found rows := by
  cases h with
  | unread h =>
    rcases h with hnone | hnone
    · cases hnone.symm.trans htarget
    · refine ⟨[], id, fun _ _ _ => rfl, hjoined, fun row hrow key hkey hblank => ?_⟩
      exact absurd ⟨key, hkey, hblank⟩ (hnone row hrow)
  | read htarget' _ hread hname =>
    cases htarget'.symm.trans htarget
    obtain ⟨failures, -, -, rfl⟩ := hread
    refine ⟨fetched, _, fun c hc record => ?_, hjoined, fun row hrow key hkey hblank =>
      serves_of_answers (hanswered s.channel _ _ (by simp)) hliteral hrow hkey hblank⟩
    cases hname with
    | unread _ => rfl
    | read _ _ => rw [find_withNames, if_neg hc]

theorem attached_of_joins {s : Session} {catalog : Catalog} {target : Entity}
    {found rows : List Row} {minimal : Bool} {wanted : List Link} {segments : List (List Exchange)}
    (h : Joins s catalog found minimal wanted segments rows)
    (hanswered : AnsweredFor D T l segments.flatten) (hl : l ∈ wanted)
    (htarget : catalog.entity? l.target = some target)
    (hliteral : ∀ k ∈ ownerKeys found l.keys.baseColumn, IsLiteral k) :
    Attached s target minimal T l found rows := by
  obtain ⟨segment, hsegment, fetched, dress, hbatch, hjoined⟩ := exists_of_forall₂ h.each hl
  have hread : AnsweredFor D T l segment := fun channel keys rows hmem =>
    hanswered channel keys rows (List.mem_flatten.2 ⟨segment, hsegment, hmem⟩)
  exact attached_of_batch hbatch hjoined htarget hread hliteral

end Linked

/-! ## What a caller may read -/

open Reduce Compile

/-- Whether a row that makes the tests `ν` true is among what is seen of an object. -/
def Sight.LetsThrough (env : Env) (frame : Frame) (ρ : Rule → Condition) (e : Entity)
    (ν : Predicate → Bool) : Sight → Prop
  | .everything => True
  | .nothing => False
  | .covered scopes => (∃ scope ∈ scopes, scope.covers e.id = true) ∧
    LetThrough env frame ρ (scopeFilters e scopes) ν

section

variable {env : Env} {frame : Frame} {ρ : Rule → Condition} {e : Entity} {sight : Sight}
  {c : Condition} {p : Option Predicate} {D : Dialect} {T : Tables} {scene : Scene}

theorem not_passes_false (h : CompilesTo env frame ((Condition.constant false).resolve ρ) p) :
    ¬ Passes (tests D T scene) p := by
  have hfalse : CompilesTo env frame ((Condition.constant false).resolve ρ)
      (some (.constant false)) := ⟨1, rfl⟩
  cases h.unique hfalse
  intro hpass
  cases passes_tests.1 hpass

/-- What an empty condition is narrowed to is passed by what is seen of the object. -/
theorem passes_narrow_empty (hc : c.isEmpty = true)
    (h : CompilesTo env frame ((sight.narrow e c).resolve ρ) p) :
    Passes (tests D T scene) p ↔ sight.LetsThrough env frame ρ e (tests D T scene) := by
  have hnone {q : Option Predicate} (hq : CompilesTo env frame (c.resolve ρ) q) : q = none := by
    rw [Condition.resolve_of_isEmpty hc] at hq
    exact hq.unique ⟨1, by rw [within, tree_of_isEmpty c hc]; rfl⟩
  cases sight with
  | everything =>
    cases hnone h
    exact Iff.rfl
  | nothing => exact iff_of_false (not_passes_false h) id
  | covered scopes =>
    by_cases hcovers : ∃ scope ∈ scopes, scope.covers e.id = true
    · obtain ⟨scope, hscope, hcover⟩ := id hcovers
      have hne := List.ne_nil_of_mem (mem_scopeFilters.2 ⟨scope, hscope, hcover, rfl⟩)
      obtain ⟨-, own, hown, hpass⟩ := passes_narrow hne h
      cases hnone hown
      rw [hpass, Sight.LetsThrough, and_iff_right hcovers]
      exact and_iff_right trivial
    · have hnot : ∀ scope ∈ scopes, scope.covers e.id = false := by simpa using hcovers
      rw [narrow_of_not_covered hnot] at h
      exact iff_of_false (not_passes_false h) fun hthrough => hcovers hthrough.1

end

/-- Whether a find finds a row of its object. -/
def Finding.Finds (f : Finding) (D : Dialect) (T : Tables) (r : Stored) : Prop :=
  Scene.empty.add f.object.table r ∈ f.statement.scenes D T

/-- A find without condition finds what its caller sees. -/
theorem Finding.finds_iff {f : Finding} {s : Session} {entity : String} {caller : Caller}
    {t : List Exchange} (h : f.Of s entity {} caller t) {ρ : Rule → Condition}
    (hnodes : f.nodes = (occurrences (f.merged {})).map (ρ ·.1)) {D : Dialect} {T : Tables}
    {r : Stored} : f.Finds D T r ↔ r ∈ T f.object.table ∧
      f.sight.LetsThrough (f.env s caller) (.base f.object) ρ f.narrowed
        (tests D T (Scene.empty.add f.object.table r)) := by
  have hselect := h.statement
  rw [hnodes, substituted_eq_resolve] at hselect
  obtain ⟨frame, hsource, hcompiled, -⟩ := frame_of_findSelect hselect hselect
  obtain ⟨hstatement, rfl⟩ := Prod.mk.inj (Except.ok.inj hsource)
  rw [Finding.Finds, Select.scenes, List.mem_filter, ← passes_tests,
    passes_narrow_empty rfl hcompiled, ← hstatement, Link.source_scenes_single, Option.getD_none]
  refine and_congr_left fun _ => ?_
  rw [List.mem_map]
  constructor
  · rintro ⟨r', hr', hscene⟩
    have hrow := congrFun hscene f.object.table
    rw [Scene.add_self, Scene.add_self] at hrow
    exact hrow ▸ hr'
  · exact fun hr => ⟨r, hr, rfl⟩

/-! ## What is attached -/

theorem Link.mem_of_mem_rows {l : Link} {T : Tables} {r r' : Stored} (h : r' ∈ l.rows T r) :
    r' ∈ T l.targetTable := by
  rw [Link.rows] at h
  split at h
  · exact List.mem_of_mem_filter h
  · exact List.mem_of_mem_filter h
  · obtain ⟨j, -, hr'⟩ := List.mem_flatMap.1 h
    exact List.mem_of_mem_filter hr'

/-- Linked records are attached whoever asks. Two callers for whom a find has read the same rows are
given the same, as long as the same requests are answered alike: in a database, for each row that has a
key, the records that a wanted link leads to. Of these a caller who asks for the linked object finds
only what the scopes that cover it let through. -/
theorem attached_whoever_asks {s : Session} {entity : String} {o : FindOptions}
    {caller caller' : Caller} {t t' : List Exchange} {rows rows' : List Row}
    (h : (s.find entity o caller).Runs t (.ok rows))
    (h' : (s.find entity o caller').Runs t' (.ok rows')) :
    ∃ (f f' : Finding) (before after before' after' : List Exchange),
      t = before ++ after ∧ f.Of s entity o caller before ∧
      t' = before' ++ after' ∧ f'.Of s entity o caller' before' ∧
      (f.object = f'.object → f.rows = f'.rows →
        ∀ answer : (r : Request) → r.Answer, (∀ x ∈ after ++ after', x.answer = answer x.request) →
          rows = rows') ∧
      ((f.rows = [] ∨ o.populate = .none) ∧ rows = f.rows ∨
        ∃ (catalog : Catalog) (links : Links) (map : LinkMap) (reads : List Exchange),
          after = ⟨.catalog, catalog⟩ :: ⟨.links, links⟩ :: ⟨.consult f.object.id, ()⟩ :: reads ∧
          links f.object.id = .ok map ∧
          let wanted := map.links.filter fun l => o.populate.includes l.field l.column
          (Linked.Apart wanted → ∀ D T, Linked.Answered D T reads →
            ∀ l ∈ wanted, ∀ target, catalog.entity? l.target = some target →
              (∀ k ∈ Linked.ownerKeys f.rows l.keys.baseColumn, IsLiteral k) →
              Linked.Attached s target o.minimal T l f.rows rows) ∧
          ∀ l ∈ wanted, ∀ (g : Finding) (u : List Exchange) (ρ : Rule → Condition),
            g.Of s l.target {} caller u → g.nodes = (occurrences (g.merged {})).map (ρ ·.1) →
            g.object.table = l.targetTable →
            ∀ (D : Dialect) (T : Tables) (r₀ : Stored), ∀ r ∈ l.rows T r₀, g.Finds D T r ↔
              g.sight.LetsThrough (g.env s caller) (.base g.object) ρ g.narrowed
                (tests D T (Scene.empty.add g.object.table r))) := by
  obtain ⟨f, before, after, rfl, hof, hpopulate⟩ := Session.exists_finding h
  obtain ⟨f', before', after', rfl, hof', hpopulate'⟩ := Session.exists_finding h'
  refine ⟨f, f', before, after, before', after', rfl, hof, rfl, hof', ?_, ?_⟩
  · -- The caller has no part in what is attached to the rows.
    intro hobject hrows answer hanswers
    rw [List.forall_mem_append] at hanswers
    rw [← hobject, ← hrows] at hpopulate'
    have heq := (Program.Runs.iff_transcript.1 ⟨hpopulate, hanswers.1⟩).symm.trans
      (Program.Runs.iff_transcript.1 ⟨hpopulate', hanswers.2⟩)
    cases heq
    rfl
  rcases Linked.joins_of_populate hpopulate with
    hnone | ⟨catalog, links, map, segments, rfl, hmap, hjoined⟩
  · exact .inl hnone
  refine .inr ⟨catalog, links, map, segments.flatten, rfl, hmap, ?_, ?_⟩
  · intro hapart D T hanswered l hl target htarget hliteral
    exact Linked.attached_of_joins (hjoined hapart) (hanswered.answeredFor l) hl htarget hliteral
  · intro l hl g u ρ hg hnodes htable D T r₀ r hr
    rw [Finding.finds_iff hg hnodes, htable]
    exact and_iff_right (Link.mem_of_mem_rows hr)

/-- An invoice is given its customer whether alice asks, who is shown invoices alone, or the system;
alice finds no customer. -/
theorem attached_whoever_asks_customer :
    let customer := Entity.new "customer" "Customer" "CUSTOMER" []
    let invoice := Entity.new "invoice" "Invoice" "INVOICE"
      [.new "f" "customer" (.connection (.between "customer" .one .many))]
    let catalog : Catalog := ⟨[invoice, customer], [], []⟩
    let s : Session := ⟨{}, {}, .tenant⟩
    let alice : Caller := { username := some "alice" }
    let system : Caller := { isSystem := true }
    let l : Link := ⟨"f", "customer", "customer__relation", .oneToMany, "customer", "CUSTOMER", false,
      .own "customer" "uuid"⟩
    let scope : Scope := ⟨"s1", "", false, ["invoice"], .empty⟩
    let granted : Row := [("uuid", .str "s1"), ("objectIds", .arr [.str "invoice"])]
    let row : Row := [("customer", .str "c1"), ("uuid", .str "i1")]
    let acme : Row := [("name", .str "Acme"), ("uuid", .str "c1")]
    let answer := Request.underScopes {} catalog [granted] fun read =>
      if read.source.table = "INVOICE" then [row]
      else if read.source.called.isSome then [acme] else []
    let t := ((s.find "invoice" { populate := .all } alice).transcript answer).1
    let t' := ((s.find "invoice" { populate := .all } system).transcript answer).1
    let rows := [[("customer", .str "c1"), ("customer__relation", .obj acme), ("uuid", .str "i1")]]
    let g : Finding := ⟨catalog, customer, customer, [], LinkMap.ofCatalog {} catalog,
      .covered [scope], [], ⟨false, [.all "CUSTOMER"], ⟨"CUSTOMER", none, []⟩,
        some (.constant false), [], some 1000, none⟩, []⟩
    (s.find "invoice" { populate := .all } alice).Runs t (.ok rows) ∧
      (s.find "invoice" { populate := .all } system).Runs t' (.ok rows) ∧
      (∃ u, g.Of s "customer" {} alice u) ∧ scope.covers "customer" = false ∧
      ∀ (D : Dialect) (T : Tables) (r₀ : Stored), ∀ r ∈ l.rows T r₀, ¬ g.Finds D T r := by
  intro customer invoice catalog s alice system l scope granted row acme answer t t' rows g
  have h : (s.find "invoice" { populate := .all } alice).Runs t (.ok rows) := by
    apply Program.Runs.of_transcript
    dsimp only [customer, invoice, catalog, s, alice, granted, row, acme, answer, rows]
    rfl
  have h' : (s.find "invoice" { populate := .all } system).Runs t' (.ok rows) := by
    apply Program.Runs.of_transcript
    dsimp only [customer, invoice, catalog, s, system, granted, row, acme, answer, rows]
    rfl
  obtain ⟨u, -, hg, -⟩ : ∃ u v, g.Of s "customer" {} alice u ∧
      (s.find "customer" {} alice).Runs (u ++ v) (.ok []) := by
    apply Finding.exists_of_answers answer rfl rfl
    all_goals
      dsimp only [customer, invoice, catalog, s, alice, scope, granted, row, acme, answer, g]
      rfl
  have hscope : scope.covers "customer" = false := rfl
  refine ⟨h, h', ⟨u, hg⟩, hscope, fun D T r₀ r hr => ?_⟩
  obtain ⟨f, -, before, after, -, -, ht, hof, -, -, -, hread⟩ := attached_whoever_asks h h'
  rcases hread with ⟨hnone, hrows⟩ | ⟨_, links, map, reads, rfl, hmap, -, hfinds⟩
  · rcases hnone with hnone | hnone
    · rw [hnone] at hrows
      exact absurd hrows (List.cons_ne_nil _ _)
    · cases hnone
  have hlinks : links = LinkMap.ofCatalog {} catalog :=
    (Program.Runs.iff_transcript.2 rfl).2 ⟨.links, links⟩ (show _ ∈ t by rw [ht]; simp)
  rw [hlinks, Catalog.id_of_entity hof.object] at hmap
  cases hmap
  have hl : l ∈ [l] := List.mem_cons_self
  rw [hfinds l hl g u .rule hg rfl rfl D T r₀ r hr]
  rintro ⟨⟨scope', hmem, hcovers⟩, -⟩
  cases List.mem_singleton.1 hmem
  cases hcovers.symm.trans hscope

/-- Who is shown invoices alone is given the customer of an invoice, but finds no customer. -/
theorem attached_unseen_customer :
    let customer := Entity.new "customer" "Customer" "CUSTOMER" []
    let invoice := Entity.new "invoice" "Invoice" "INVOICE"
      [.new "f" "customer" (.connection (.between "customer" .one .many))]
    let catalog : Catalog := ⟨[invoice, customer], [], []⟩
    let s : Session := ⟨{}, {}, .tenant⟩
    let alice : Caller := { username := some "alice" }
    let scope : Row := [("uuid", .str "s1"), ("objectIds", .arr [.str "invoice"])]
    let row : Row := [("customer", .str "c1"), ("uuid", .str "i1")]
    let acme : Row := [("name", .str "Acme"), ("uuid", .str "c1")]
    let answer := Request.underScopes {} catalog [scope] fun read =>
      if read.source.table = "INVOICE" then [row]
      else if read.source.called.isSome then [acme] else []
    ((s.find "invoice" { populate := .all } alice).transcript answer).2 =
        .ok [[("customer", .str "c1"), ("customer__relation", .obj acme), ("uuid", .str "i1")]] ∧
      ∃ (g : Finding) (u : List Exchange), g.Of s "customer" {} alice u ∧
        ∀ D T, g.statement.scenes D T = [] := by
  intro customer invoice catalog s alice scope row acme answer
  constructor
  · dsimp only [customer, invoice, catalog, s, alice, scope, row, acme, answer]
    rfl
  let g : Finding := ⟨catalog, customer, customer, [], LinkMap.ofCatalog {} catalog,
    .covered [⟨"s1", "", false, ["invoice"], .empty⟩], [],
    ⟨false, [.all "CUSTOMER"], ⟨"CUSTOMER", none, []⟩, some (.constant false), [], some 1000, none⟩,
    []⟩
  obtain ⟨u, -, h, -⟩ : ∃ u v, g.Of s "customer" {} alice u ∧
      (s.find "customer" {} alice).Runs (u ++ v) (.ok []) := by
    apply Finding.exists_of_answers answer rfl rfl
    all_goals
      dsimp only [customer, invoice, catalog, s, alice, scope, row, acme, answer, g]
      rfl
  refine ⟨g, u, h, fun D T => ?_⟩
  rw [Select.scenes, List.filter_eq_nil_iff]
  intro scene _ hpass
  cases hpass

end CatalogQuery
