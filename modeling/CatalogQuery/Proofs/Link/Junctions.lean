import CatalogQuery.Proofs.Link.Mirror

/-!
# Names of junctions and of their columns

A junction is named after two tables and a column. Each of them is cut to one share of what a name
may have, and they are joined by underscores, which they may hold themselves. Its columns are named
after the two tables, each cut to the whole limit. Main statements: which connections arrive at one
name, and which junctions have one column for both sides.
-/

namespace CatalogQuery

/-- What a junction is named after: the tables of its source and of its target, and the column of
the field on its source. -/
@[ext]
structure JunctionParts where
  source : String
  target : String
  column : String
deriving DecidableEq

/-- The table of a junction. -/
def LinkKeys.junction? : LinkKeys → Option String
  | junction table _ _ _ _ => some table
  | own _ _ | linked _ _ => none

/-- A name within the limit is not cut. -/
theorem Sql.cut_of_length_le {name : String} {limit : Nat} (h : name.toList.length ≤ limit) :
    cut name limit = name := by
  rw [cut, List.take_of_length_le h, String.ofList_toList]

/-- What is added to a name within the limit is lost exactly where the name fills the limit. -/
theorem Sql.cut_append_eq_iff {name rest : String} {limit : Nat} (h : name.toList.length ≤ limit)
    (hrest : rest ≠ "") : cut (name ++ rest) limit = name ↔ name.toList.length = limit := by
  have hpos : 0 < rest.toList.length := List.length_pos_iff.2 fun h => hrest (by simpa using h)
  have htake : cut (name ++ rest) limit = name ++ cut rest (limit - name.toList.length) := by
    simp [cut, List.take_append, List.take_of_length_le h]
  constructor
  · intro heq
    have hlength := congrArg (fun s => s.toList.length) heq
    simp only [Sql.length_cut, String.toList_append, List.length_append] at hlength
    omega
  · intro hfull
    rw [htake, hfull, Nat.sub_self]
    simp [cut]

/-- Texts that are joined by an underscore give one text only if they are the same, or if one of
them holds the underscore that another is joined by. -/
theorem append_underscore_iff {s t s' t' : String} :
    s ++ "_" ++ t = s' ++ "_" ++ t' ↔ s = s' ∧ t = t' ∨
      (∃ w, s' = s ++ "_" ++ w ∧ t = w ++ "_" ++ t') ∨
      ∃ w, s = s' ++ "_" ++ w ∧ t' = w ++ "_" ++ t := by
  -- Of two beginnings of one text the longer one goes on after the shorter.
  have hlonger {s t s' t' rest : List Char} (hs : s' = s ++ rest)
      (ht : '_' :: t = rest ++ '_' :: t') :
      s = s' ∧ t = t' ∨ ∃ w, s' = s ++ '_' :: w ∧ t = w ++ '_' :: t' := by
    cases rest with
    | nil => exact .inl ⟨by simpa using hs.symm, by simpa using ht⟩
    | cons a w =>
      rw [List.cons_append, List.cons.injEq] at ht
      obtain ⟨rfl, ht⟩ := ht
      exact .inr ⟨w, hs, ht⟩
  constructor
  · intro h
    have hlists : s.toList ++ '_' :: t.toList = s'.toList ++ '_' :: t'.toList := by
      simpa using congrArg String.toList h
    rcases List.append_eq_append_iff.1 hlists with ⟨rest, hs, ht⟩ | ⟨rest, hs, ht⟩
    · rcases hlonger hs ht with ⟨hs, ht⟩ | ⟨w, hs, ht⟩
      · exact .inl ⟨String.toList_inj.1 hs, String.toList_inj.1 ht⟩
      · refine .inr (.inl ⟨String.ofList w, ?_, ?_⟩) <;> simpa [← String.toList_inj]
    · rcases hlonger hs ht with ⟨hs, ht⟩ | ⟨w, hs, ht⟩
      · exact .inl ⟨String.toList_inj.1 hs.symm, String.toList_inj.1 ht.symm⟩
      · refine .inr (.inr ⟨String.ofList w, ?_, ?_⟩) <;> simpa [← String.toList_inj]
  · rintro (⟨rfl, rfl⟩ | ⟨w, rfl, rfl⟩ | ⟨w, rfl, rfl⟩)
    · rfl
    · simp only [String.append_assoc]
    · simp only [String.append_assoc]

namespace JunctionParts

/-- The parts of the junction between an object and the target of one of its fields, which are those
of its source. -/
def of (e target : Entity) (f : Field) (c : Connection) : JunctionParts :=
  match c.reverse.bind target.fieldById with
  | some r =>
    if c.isSource then ⟨e.table, target.table, f.column⟩ else ⟨target.table, e.table, r.column⟩
  | none => ⟨e.table, target.table, f.column⟩

/-- How many characters of each part a name has room for. -/
def share (settings : Settings) : Nat :=
  (settings.nameLimit - (settings.junctionHead.toList.length + 3)) / 3

variable (p q : JunctionParts)

/-- What is kept of each part. -/
def kept (share : Nat) : JunctionParts :=
  ⟨Sql.cut p.source share, Sql.cut p.target share, Sql.cut p.column share⟩

/-- Whether nothing of any part is cut off. -/
def Fits (share : Nat) : Prop :=
  p.source.toList.length ≤ share ∧ p.target.toList.length ≤ share ∧ p.column.toList.length ≤ share

instance (share : Nat) : Decidable (p.Fits share) := inferInstanceAs (Decidable (_ ∧ _ ∧ _))

def joined : String := p.source ++ "_" ++ (p.target ++ "_" ++ p.column)

/-- Whether an underscore in the name of one of `q`'s tables stands where `p` has a separator, and
the joined parts are the same text all the same. -/
inductive Shifts : Prop
  | source (w : String) (source : q.source = p.source ++ "_" ++ w)
    (rest : p.target ++ "_" ++ p.column = w ++ "_" ++ (q.target ++ "_" ++ q.column))
  | target (w : String) (source : q.source = p.source) (target : q.target = p.target ++ "_" ++ w)
    (column : p.column = w ++ "_" ++ q.column)

variable {p q} {settings : Settings} {n : Nat}

theorem Shifts.joined_eq (h : p.Shifts q) : p.joined = q.joined := by
  cases h with
  | source w source rest => simp only [joined, source, rest, String.append_assoc]
  | target w source target column =>
    simp only [joined, source, target, column, String.append_assoc]

/-- Joined parts give one text only where they are the same or a separator shifts. -/
theorem joined_eq_iff : p.joined = q.joined ↔ p = q ∨ p.Shifts q ∨ q.Shifts p := by
  constructor
  · intro h
    rcases append_underscore_iff.1 h with ⟨hs, hrest⟩ | ⟨w, hs, hrest⟩ | ⟨w, hs, hrest⟩
    · rcases append_underscore_iff.1 hrest with ⟨ht, hc⟩ | ⟨w, ht, hc⟩ | ⟨w, ht, hc⟩
      · exact .inl (JunctionParts.ext hs ht hc)
      · exact .inr (.inl (.target w hs.symm ht hc))
      · exact .inr (.inr (.target w hs ht hc))
    · exact .inr (.inl (.source w hs hrest))
    · exact .inr (.inr (.source w hs hrest))
  · rintro (rfl | h | h)
    · rfl
    · exact h.joined_eq
    · exact h.joined_eq.symm

theorem kept_of_fits (h : p.Fits n) : p.kept n = p := by
  obtain ⟨hs, ht, hc⟩ := h
  simp [kept, Sql.cut_of_length_le, hs, ht, hc]

/-- Tables without an underscore leave no doubt where a separator stands. -/
theorem not_shifts (hs : '_' ∉ q.source.toList) (ht : '_' ∉ q.target.toList) : ¬ p.Shifts q := by
  rintro (⟨w, hw, -⟩ | ⟨w, -, hw, -⟩)
  · exact hs (by simp [hw])
  · exact ht (by simp [hw])

/-- The table of a many to many link is named after its parts. -/
theorem junctionKeys_eq (e target : Entity) (f : Field) (c : Connection)
    (sourceKey targetKey : String) :
    (Link.junctionKeys settings e target f c (c.reverse.bind target.fieldById) sourceKey
        targetKey).junction? =
      some (settings.junctionHead ++ "_" ++ ((of e target f c).kept (share settings)).joined) := by
  simp only [Link.junctionKeys, LinkKeys.junction?, junctionName, joined, kept, share, of,
    String.append_assoc]
  cases c.reverse.bind target.fieldById with
  | none => rfl
  | some r => cases c.isSource <;> rfl

end JunctionParts

namespace LinkMap

variable {catalog : Catalog} {e target : Entity} {f : Field} {c : Connection}

/-- A many to many connection has a link whenever the object that it leads to is there. -/
theorem exists_junction (settings : Settings) (hf : f ∈ e.fields) (hc : f.connection? = some c)
    (hshape : c.shape = .manyToMany) (htarget : catalog.entity? c.target = some target) :
    ∃ l ∈ (resolve settings catalog e).1.links, l.field = f.id ∧ l.keys.junction? =
      some (settings.junctionHead ++ "_" ++
        ((JunctionParts.of e target f c).kept (JunctionParts.share settings)).joined) := by
  have ⟨keys, hkeys, htable⟩ : ∃ keys, (Link.keysOf settings e target f c).1 = some keys ∧
      keys.junction? = some (settings.junctionHead ++ "_" ++
        ((JunctionParts.of e target f c).kept (JunctionParts.share settings)).joined) := by
    simp only [Link.keysOf, hshape]
    exact ⟨_, rfl, JunctionParts.junctionKeys_eq ..⟩
  exact ⟨_, mem_resolve.2 ⟨f, hf, c, hc, Link.ofField_of_entity? htarget hkeys⟩, rfl, htable⟩

/-- Two many to many connections are resolved, and they share a junction exactly where their parts
have the same beginnings, or where an underscore in the name of a table passes for a separator. So
connections between the same tables share one where their columns begin alike, and connections
whose parts fit and whose tables have no underscores in their names do not. -/
theorem junction_eq_iff (settings : Settings) {catalog : Catalog} {a b s t : Entity} {f g : Field}
    {c d : Connection} (hf : f ∈ a.fields) (hg : g ∈ b.fields) (hc : f.connection? = some c)
    (hd : g.connection? = some d) (hshape : c.shape = .manyToMany) (hshape' : d.shape = .manyToMany)
    (hs : catalog.entity? c.target = some s) (ht : catalog.entity? d.target = some t) :
    let n := JunctionParts.share settings
    let p := JunctionParts.of a s f c
    let q := JunctionParts.of b t g d
    ∃ l ∈ (resolve settings catalog a).1.links, ∃ m ∈ (resolve settings catalog b).1.links,
      ∃ table table', l.field = f.id ∧ l.keys.junction? = some table ∧
        m.field = g.id ∧ m.keys.junction? = some table' ∧
        (table = table' ↔
          p.kept n = q.kept n ∨ (p.kept n).Shifts (q.kept n) ∨ (q.kept n).Shifts (p.kept n)) ∧
        (p.source = q.source → p.target = q.target →
          (table = table' ↔ Sql.cut p.column n = Sql.cut q.column n)) ∧
        (p.Fits n → q.Fits n → p ≠ q →
          (∀ name ∈ [p.source, p.target, q.source, q.target], '_' ∉ name.toList) →
            table ≠ table') := by
  intro n p q
  obtain ⟨l, hl, hfield, htable⟩ := exists_junction settings hf hc hshape hs
  obtain ⟨m, hm, hfield', htable'⟩ := exists_junction settings hg hd hshape' ht
  have hiff : settings.junctionHead ++ "_" ++ (p.kept n).joined =
      settings.junctionHead ++ "_" ++ (q.kept n).joined ↔
        p.kept n = q.kept n ∨ (p.kept n).Shifts (q.kept n) ∨ (q.kept n).Shifts (p.kept n) := by
    rw [String.append_right_inj, JunctionParts.joined_eq_iff]
  refine ⟨l, hl, m, hm, _, _, hfield, htable, hfield', htable', hiff, ?_, ?_⟩
  · intro hsource htarget
    have hkept : (p.kept n).joined = (q.kept n).joined ↔
        Sql.cut p.column n = Sql.cut q.column n := by
      simp only [JunctionParts.joined, JunctionParts.kept, hsource, htarget,
        String.append_right_inj]
    rw [String.append_right_inj]
    exact hkept
  · -- A separator is taken for another one only if a table has an underscore in its name.
    intro hfits hfits' hne hplain
    simp only [List.forall_mem_cons] at hplain
    obtain ⟨hps, hpt, hqs, hqt, -⟩ := hplain
    have hdiffer : (p.kept n).joined ≠ (q.kept n).joined := by
      rw [JunctionParts.kept_of_fits hfits, JunctionParts.kept_of_fits hfits', Ne,
        JunctionParts.joined_eq_iff]
      rintro (h | h | h)
      · exact hne h
      · exact JunctionParts.not_shifts hqs hqt h
      · exact JunctionParts.not_shifts hps hpt h
    rw [Ne, String.append_right_inj]
    exact hdiffer

/-- The pages of a site and the tags of a site's pages: an underscore moves from one table's name to
the other's. -/
theorem junction_eq_pages :
    let c : Connection := ⟨"page_tag", none, .many, .many, true, none, none⟩
    let d : Connection := ⟨"tag", none, .many, .many, true, none, none⟩
    let f := Field.new "f" "x" (.connection c)
    let g := Field.new "g" "x" (.connection d)
    let site := Entity.new "site" "Site" "SITE" [f]
    let pageTag := Entity.new "page_tag" "Page tag" "PAGE_TAG" []
    let sitePage := Entity.new "site_page" "Page" "SITE_PAGE" [g]
    let tag := Entity.new "tag" "Tag" "TAG" []
    let catalog : Catalog := ⟨[site, pageTag, sitePage, tag], [], []⟩
    let p := JunctionParts.of site pageTag f c
    let q := JunctionParts.of sitePage tag g d
    p.Shifts q ∧ ∃ l ∈ (resolve {} catalog site).1.links,
      ∃ m ∈ (resolve {} catalog sitePage).1.links,
        l.field = "f" ∧ m.field = "g" ∧ l.keys.junction? = m.keys.junction? := by
  intro c d f g site pageTag sitePage tag catalog p q
  have hshifts : p.Shifts q := .source "PAGE" rfl rfl
  have hfits : p.Fits (JunctionParts.share {}) := by decide
  have hfits' : q.Fits (JunctionParts.share {}) := by decide
  have hpages : catalog.entity? c.target = some pageTag := rfl
  have htags : catalog.entity? d.target = some tag := rfl
  have hmem : f ∈ site.fields := by simp [site, Entity.new]
  have hmem' : g ∈ sitePage.fields := by simp [sitePage, Entity.new]
  obtain ⟨l, hl, m, hm, table, table', hfield, htable, hfield', htable', hiff, -, -⟩ :=
    junction_eq_iff {} hmem hmem' rfl rfl rfl rfl hpages htags
  refine ⟨hshifts, l, hl, m, hm, hfield, hfield', ?_⟩
  rw [htable, htable', hiff.2]
  refine .inr (.inl ?_)
  rw [JunctionParts.kept_of_fits hfits, JunctionParts.kept_of_fits hfits']
  exact hshifts

/-- Two fields of one object whose columns begin alike: two lists of documents in one junction. -/
theorem junction_shared_documents :
    let c : Connection := ⟨"doc", none, .many, .many, true, none, none⟩
    let f := Field.new "f" "related_documents_in" (.connection c)
    let g := Field.new "g" "related_documents_of" (.connection c)
    let note := Entity.new "note" "Note" "NOTE" [f, g]
    let doc := Entity.new "doc" "Doc" "DOC" []
    let catalog : Catalog := ⟨[note, doc], [], []⟩
    (∀ e ∈ catalog.entities, nameNotices {} e = []) ∧
      JunctionParts.of note doc f c ≠ JunctionParts.of note doc g c ∧
      (resolve {} catalog note).1.links.map (fun l => (l.field, l.keys.junction?)) =
        [("f", some "JOINMN_NOTE_DOC_related_documents_"),
          ("g", some "JOINMN_NOTE_DOC_related_documents_")] := by
  decide

end LinkMap

/-! ### The columns of a junction -/

namespace Link

/-- The two columns of a junction are named after the two tables, or within one table after the
table and after the table with the field that its source has. -/
theorem exists_junctionKeys {settings : Settings} {e target : Entity} (field : Field)
    (c : Connection) (reverse : Option Field) (sourceKey targetKey : String)
    (hown : e.table.toList.length ≤ settings.nameLimit)
    (hother : target.table.toList.length ≤ settings.nameLimit) :
    ∃ table sourceColumn targetColumn,
      junctionKeys settings e target field c reverse sourceKey targetKey =
        .junction table sourceColumn targetColumn sourceKey targetKey ∧
      (e.table ≠ target.table → sourceColumn = e.table ∧ targetColumn = target.table) ∧
      (e.table = target.table → ∃ column,
        let suffixed := Sql.cut (e.table ++ "_" ++ column) settings.nameLimit
        sourceColumn = e.table ∧ targetColumn = suffixed ∨
          sourceColumn = suffixed ∧ targetColumn = e.table) := by
  have hown := Sql.cut_of_length_le hown
  have hother := Sql.cut_of_length_le hother
  -- The roles are turned where the source is the linked object, which then has the field.
  cases reverse with
  | none =>
    simp only [junctionKeys, Option.isNone_none, Bool.or_true, if_true]
    refine ⟨_, _, _, rfl, fun hne => ?_, fun heq => ⟨field.column, ?_⟩⟩
    · simp [hne, hown, hother]
    · simp [← heq, hown]
  | some r =>
    cases hside : c.isSource with
    | true =>
      simp only [junctionKeys, hside, Bool.true_or, if_true]
      refine ⟨_, _, _, rfl, fun hne => ?_, fun heq => ⟨field.column, ?_⟩⟩
      · simp [hne, hown, hother]
      · simp [← heq, hown]
    | false =>
      simp only [junctionKeys, hside, Option.isNone_some, Bool.or_false, Bool.false_eq_true, if_false]
      refine ⟨_, _, _, rfl, fun hne => ?_, fun heq => ⟨r.column, ?_⟩⟩
      · simp [hne.symm, hown, hother]
      · simp [← heq, hown]

theorem junctionKeys_of_keysOf {settings : Settings} {e target : Entity} {f : Field}
    {c : Connection} {table sourceColumn targetColumn source key : String}
    (h : (keysOf settings e target f c).1 =
      some (.junction table sourceColumn targetColumn source key)) :
    junctionKeys settings e target f c (c.reverse.bind target.fieldById) source key =
      .junction table sourceColumn targetColumn source key := by
  rw [keysOf] at h
  cases hshape : c.shape with
  | oneToMany => simp [hshape] at h
  | manyToOne => simp [hshape, Option.map_eq_some_iff, -Option.map_bind] at h
  | oneToOne =>
    cases hside : c.isSource <;>
      simp [hshape, hside, Option.map_eq_some_iff, -Option.map_bind] at h
  | manyToMany =>
    simp only [hshape, Option.some.injEq] at h
    obtain ⟨-, -, -, rfl, rfl⟩ := LinkKeys.junction.inj h
    exact h

end Link

namespace LinkMap

/-- The table of an object without notices on its names fits the limit. -/
theorem length_table_le {settings : Settings} {e : Entity} (h : nameNotices settings e = []) :
    e.table.toList.length ≤ settings.nameLimit := by
  have hfault : Sql.nameFault e.table settings.nameLimit = none := by
    simpa using List.filterMap_eq_nil_iff.1 h e.table (.head _)
  exact (Sql.nameFault_eq_none_iff.1 hfault).2

/-- With names that fit the limit, the columns of a junction between two tables are named after
these. Within one table they differ as long as the table's name leaves room for one more character:
where it fills the limit, nothing is left of the suffix that keeps them apart. -/
theorem junction_columns_eq_iff {settings : Settings} {catalog : Catalog} {e : Entity} {l : Link}
    (hnames : ∀ e ∈ catalog.entities, nameNotices settings e = []) (he : e ∈ catalog.entities)
    (hl : l ∈ (resolve settings catalog e).1.links)
    {table sourceColumn targetColumn source target : String}
    (hkeys : l.keys = .junction table sourceColumn targetColumn source target) :
    (e.table ≠ l.targetTable → sourceColumn = e.table ∧ targetColumn = l.targetTable) ∧
      (e.table = l.targetTable → ∃ column,
        let suffixed := Sql.cut (e.table ++ "_" ++ column) settings.nameLimit
        sourceColumn = e.table ∧ targetColumn = suffixed ∨
          sourceColumn = suffixed ∧ targetColumn = e.table) ∧
      (sourceColumn = targetColumn ↔
        e.table = l.targetTable ∧ e.table.toList.length = settings.nameLimit) := by
  obtain ⟨f, -, c, -, hlink⟩ := mem_resolve.1 hl
  obtain ⟨linked, hlinked, -, htable, -, hheld⟩ := Link.exists_of_ofField hlink
  have hown := length_table_le (hnames e he)
  have hother := length_table_le (hnames linked (List.mem_of_find?_eq_some hlinked))
  obtain ⟨table', c', d', hjunction, hdiffer, hsame⟩ := Link.exists_junctionKeys f c
    (c.reverse.bind linked.fieldById) source target hown hother
  have hcolumns : sourceColumn = c' ∧ targetColumn = d' := by
    rw [hkeys] at hheld
    have heq := (Link.junctionKeys_of_keysOf hheld).symm.trans hjunction
    simp only [LinkKeys.junction.injEq] at heq
    exact ⟨heq.2.1, heq.2.2.1⟩
  obtain ⟨rfl, rfl⟩ := hcolumns
  rw [htable]
  refine ⟨hdiffer, hsame, ?_⟩
  by_cases heq : e.table = linked.table
  · obtain ⟨column, hcolumns⟩ := hsame heq
    have hcut : Sql.cut (e.table ++ "_" ++ column) settings.nameLimit = e.table ↔
        e.table.toList.length = settings.nameLimit := by
      rw [String.append_assoc]
      exact Sql.cut_append_eq_iff hown (by simp)
    rw [and_iff_right heq, ← hcut]
    rcases hcolumns with ⟨rfl, rfl⟩ | ⟨rfl, rfl⟩
    · exact eq_comm
    · rfl
  · obtain ⟨rfl, rfl⟩ := hdiffer heq
    simp [heq]

/-- The friends of a person: the column of the other side has the field's name behind the table's. -/
theorem junction_columns_friends :
    let c : Connection := ⟨"person", none, .many, .many, true, none, none⟩
    let person := Entity.new "person" "Person" "PERSON" [.new "f" "friends" (.connection c)]
    let catalog : Catalog := ⟨[person], [], []⟩
    ∃ l ∈ (resolve {} catalog person).1.links,
      l.keys = .junction "JOINMN_PERSON_PERSON_friends" "PERSON" "PERSON_friends" "uuid" "uuid" ∧
      ("PERSON" = "PERSON_friends" ↔
        person.table = l.targetTable ∧ person.table.toList.length = 64) := by
  intro c person catalog
  have hnames : ∀ e ∈ catalog.entities, nameNotices {} e = [] := by decide
  let l : Link := ⟨"f", "friends", "friends__relation", .manyToMany, "person", "PERSON", true,
    .junction "JOINMN_PERSON_PERSON_friends" "PERSON" "PERSON_friends" "uuid" "uuid"⟩
  have hl : l ∈ (resolve {} catalog person).1.links := by decide
  exact ⟨l, hl, rfl, (junction_columns_eq_iff hnames (.head _) hl rfl).2.2⟩

/-- The colleagues of a person in a table whose name fills the limit: the junction has one column for
both sides. -/
theorem junction_columns_colleagues :
    let table := "COMPANY_EMPLOYEES_AND_CONTRACTORS_WITH_THEIR_CONTACTS_BY_COUNTRY"
    let c : Connection := ⟨"person", none, .many, .many, true, none, none⟩
    let person := Entity.new "person" "Person" table [.new "f" "colleagues" (.connection c)]
    let catalog : Catalog := ⟨[person], [], []⟩
    (∀ e ∈ catalog.entities, nameNotices {} e = []) ∧
      (resolve {} catalog person).1.links.map (·.keys) =
        [.junction "JOINMN_COMPANY_EMPLOYEES__COMPANY_EMPLOYEES__colleagues" table
          table "uuid" "uuid"] := by
  decide

end LinkMap

/-! ### What a junction is called -/

section

variable {head source target column : String} {limit : Nat}

/-- The head stands in full, and each part with as many characters as its share has. -/
theorem toList_junctionName :
    let share := (limit - head.toList.length - 3) / 3
    (junctionName head source target column limit).toList =
      head.toList ++ '_' :: (source.toList.take share ++ '_' :: (target.toList.take share ++
        '_' :: column.toList.take share)) := by
  intro share
  have hunderscore : "_".toList = ['_'] := rfl
  simp only [junctionName, Sql.cut, String.toList_append, String.toList_ofList, hunderscore,
    Nat.sub_add_eq, List.append_assoc, List.cons_append, List.nil_append, share]

/-- A head that leaves room for the separators begins the name of a junction that the database can
hold. Each part stands in it with the same share of the limit, and nothing is cut off just if every
part has at most that many characters. -/
theorem junctionName_valid (hhead : Text.isName head.toList = true)
    (hroom : head.toList.length ≤ limit - 3) (hsource : Text.isName source.toList = true)
    (htarget : Text.isName target.toList = true) (hcolumn : Text.isName column.toList = true) :
    let share := (limit - head.toList.length - 3) / 3
    let name := junctionName head source target column limit
    Sql.nameFault name limit = none ∧
      name.toList = head.toList ++ '_' :: (source.toList.take share ++ '_' ::
        (target.toList.take share ++ '_' :: column.toList.take share)) ∧
      (name = head ++ "_" ++ source ++ "_" ++ target ++ "_" ++ column ↔
        source.toList.length ≤ share ∧ target.toList.length ≤ share ∧
          column.toList.length ≤ share) := by
  intro share name
  have hparts : name.toList = head.toList ++ '_' :: (source.toList.take share ++ '_' ::
      (target.toList.take share ++ '_' :: column.toList.take share)) := toList_junctionName
  -- A name has at least one character, so that there is room for the three separators.
  have hpos : 0 < head.toList.length := by
    apply List.length_pos_iff.2
    intro hnil
    rw [hnil] at hhead
    cases hhead
  refine ⟨?_, hparts, ?_⟩
  · apply Sql.nameFault_eq_none_iff.2
    constructor
    · have hcut {part : String} (hpart : Text.isName part.toList = true) :
          (part.toList.take share).all Text.isNamePart = true := by
        have hall := List.all_eq_true.1 (Text.all_isNamePart_of_isName hpart)
        exact List.all_eq_true.2 fun c hc => hall c (List.mem_of_mem_take hc)
      have hseparator : Text.isNamePart '_' = true := rfl
      rw [hparts]
      apply Text.isName_append hhead
      simp only [List.all_cons, List.all_append, hcut hsource, hcut htarget, hcut hcolumn,
        hseparator, Bool.and_self]
    · apply length_junctionName
      omega
  · constructor
    · -- Cutting anything off would make the name shorter.
      intro heq
      have hlength := congrArg List.length hparts
      rw [heq] at hlength
      have hunderscore : "_".toList.length = 1 := rfl
      simp only [String.toList_append, List.length_append, List.length_cons, List.length_take,
        hunderscore] at hlength
      omega
    · rintro ⟨hs, ht, hc⟩
      apply String.toList_inj.1
      rw [hparts, List.take_of_length_le hs, List.take_of_length_le ht,
        List.take_of_length_le hc]
      simp

/-- Little is left of an invoice, a tag and a field between them. -/
theorem junctionName_valid_tags :
    let name := junctionName "JOINMN" "INVOICE" "TAG" "tags" 18
    name = "JOINMN_INV_TAG_tag" ∧ Sql.nameFault name 18 = none ∧
      name ≠ "JOINMN" ++ "_" ++ "INVOICE" ++ "_" ++ "TAG" ++ "_" ++ "tags" := by
  have hhead : Text.isName "JOINMN".toList = true := rfl
  have hroom : "JOINMN".toList.length ≤ 18 - 3 := by decide
  have hsource : Text.isName "INVOICE".toList = true := rfl
  have htarget : Text.isName "TAG".toList = true := rfl
  have hcolumn : Text.isName "tags".toList = true := rfl
  obtain ⟨hvalid, hparts, hwhole⟩ := junctionName_valid hhead hroom hsource htarget hcolumn
  refine ⟨String.toList_inj.1 hparts, hvalid, fun h => ?_⟩
  exact absurd (hwhole.1 h) (by decide)

end

end CatalogQuery
