import CatalogQuery.Proofs.Populate.Unscoped
import CatalogQuery.Proofs.Save.Writings

/-!
# Values that links go by

Links that a record does not hold itself are held under the value that it has in some column. Main
statement: whatever is written for such links goes by the value that the record was found or
inserted with, or by its key where that value is blank. Reads go by what the record has in the
column, so they find what was written unless the value is blank or was overwritten by the same call.
-/

namespace CatalogQuery

open Sql Write

/-! ## Statements that go by a value -/

/-- Whether the links of a row are held by other rows. -/
def Link.HeldElsewhere (l : Link) : Prop := ∀ foreign target, l.keys ≠ .own foreign target

namespace Write

/-- The statements on a place that give links to a value or take some away. -/
inductive Place.GoesBy (p : Place) (value : Json) : Sql.Write → Prop
  | free : GoesBy p value (.update p.table [setNull p.base] [columnIs p.base value])
  | take (k : Json) : GoesBy p value (.update p.table [setTo p.base value] [columnIs p.key k])
  | lose (k : Json) :
    GoesBy p value (.update p.table [setNull p.base] [columnIs p.key k, columnIs p.base value])
  | pair (k : Json) : GoesBy p value (.insertPair p.table (setTo p.base value) (setTo p.key k))
  | part (k : Json) : GoesBy p value (.delete p.table [columnIs p.base value, columnIs p.key k])
  | leave : GoesBy p value (.delete p.table [columnIs p.base value])

section Statements

variable {E : Engine} {T T' : Tables} {p : Place} {value : Json} {w : Sql.Write} {b : Base}
  {l : Link} {keyColumn : String} {a k : String}

theorem pairs_of_update {o : Operand} {tests : List Predicate} (h : p.Pairs T' a k)
    (hexec : E.exec T (.update p.table [⟨p.base, o⟩] tests) = some T') :
    p.Pairs T a k ∨ E.eval o = some a := by
  cases hexec
  obtain ⟨x, hx, hbase, hkey⟩ := Place.pairs_map.1 h
  split at hbase
  · have hassign : E.assign [⟨p.base, o⟩] x p.base = E.eval o := Function.update_self ..
    exact .inr (hassign.symm.trans hbase)
  · rename_i htests
    rw [if_neg htests] at hkey
    exact .inl ⟨x, hx, hbase, hkey⟩

/-- Such a statement links records to no other value. -/
theorem Place.GoesBy.pairs_of_exec (hw : p.GoesBy value w) (hexec : E.exec T w = some T')
    (h : p.Pairs T' a k) : p.Pairs T a k ∨ E.value value = some a := by
  cases hw with
  | free | lose => exact (pairs_of_update h hexec).imp_right fun hnull => by cases hnull
  | take => exact pairs_of_update h hexec
  | pair k' =>
    rw [Engine.exec] at hexec
    split at hexec
    · cases hexec
    rename_i hne
    split at hexec <;> cases hexec
    · exact .inl h
    · obtain ⟨x, hx, hbase, hkey⟩ := h
      rw [Function.update_self, List.mem_append, List.mem_singleton] at hx
      rcases hx with hx | rfl
      · exact .inl ⟨x, hx, hbase, hkey⟩
      · have hnew : E.assign [setTo p.base value, setTo p.key k'] (fun _ => none) p.base =
            E.value value := (Function.update_of_ne hne ..).trans (Function.update_self ..)
        exact .inr (hnew.symm.trans hbase)
  | part | leave =>
    cases hexec
    obtain ⟨x, hx, hpair⟩ := h
    rw [Function.update_self] at hx
    exact .inl ⟨x, List.mem_of_mem_filter hx, hpair⟩

theorem goesBy_relate (hl : l.HeldElsewhere) (k : Json) : ∀ w ∈ relate b l keyColumn k,
    (placeOf b.entity ⟨l, keyColumn, []⟩).GoesBy (b.valueOf l.keys.baseColumn) w := by
  intro w hw
  rw [relate] at hw
  cases hkeys : l.keys with
  | own foreign target => exact absurd hkeys (hl foreign target)
  | linked foreign source =>
    simp only [hkeys, List.mem_append, List.mem_singleton] at hw
    simp only [placeOf, LinkKeys.baseColumn, hkeys]
    rcases hw with hw | rfl
    · split at hw
      · obtain rfl := List.mem_singleton.1 hw
        exact .free
      · cases hw
    · exact .take k
  | junction table sourceColumn targetColumn source target =>
    simp only [hkeys, List.mem_singleton] at hw
    simp only [placeOf, LinkKeys.baseColumn, hkeys]
    exact hw ▸ .pair k

theorem goesBy_unrelate (hl : l.HeldElsewhere) (k : Json) : ∀ w ∈ unrelate b l keyColumn k,
    (placeOf b.entity ⟨l, keyColumn, []⟩).GoesBy (b.valueOf l.keys.baseColumn) w := by
  intro w hw
  rw [unrelate] at hw
  cases hkeys : l.keys with
  | own foreign target => exact absurd hkeys (hl foreign target)
  | linked foreign source =>
    simp only [hkeys, List.mem_singleton] at hw
    simp only [placeOf, LinkKeys.baseColumn, hkeys]
    exact hw ▸ .lose k
  | junction table sourceColumn targetColumn source target =>
    simp only [hkeys, List.mem_singleton] at hw
    simp only [placeOf, LinkKeys.baseColumn, hkeys]
    exact hw ▸ .part k

/-- The keys that a record is linked to are read by the same value. -/
theorem currentSelect_eq {v : LinkValues} (hl : v.link.HeldElsewhere) :
    currentSelect b v = some (.plain false [.named (.bare (placeOf b.entity v).key) keyAlias]
      ⟨(placeOf b.entity v).table, none, []⟩
      (some (columnIs (placeOf b.entity v).base (b.valueOf v.link.keys.baseColumn)))) := by
  rw [currentSelect]
  cases hkeys : v.link.keys with
  | own foreign target => exact absurd hkeys (hl foreign target)
  | linked | junction => simp only [placeOf, LinkKeys.baseColumn, hkeys]

end Statements

end Write

/-! ## Reads that go by a column -/

/-- Whether reads of linked records compare what a row has in a column with the base column of a
place. -/
structure Link.ReadIn (l : Link) (p : Place) (column : String) : Prop where
  correlated : ∀ base called, (l.correlated base called).1.table = p.table ∧
    ∃ holder, (l.correlated base called).2 = ⟨⟨holder, p.base⟩, ⟨base, column⟩⟩
  baseKeys : ∀ source linked, (∃ holder, (l.baseKeys source linked).1 = ⟨holder, p.base⟩) ∧
    (l.baseKeys source linked).2.2 = column
  populated : ∀ keys, ∃ holder, (Linked.select l keys).1.filter =
    some (.oneOf (.column ⟨holder, p.base⟩) (keys.map .value) false)
  attached : ∀ row record, Linked.carries l row record = true ↔
    ∃ v owner, Json.find column row = some v ∧ v.isBlank = false ∧
      Json.find (Linked.groupColumn l) record = some owner ∧ owner.plain = v.plain
  rows : ∀ T r x, x ∈ l.rows T r → ∃ y ∈ T p.table, same (y p.base) (r column) = true

theorem Link.readIn_placeOf {l : Link} (hl : l.HeldElsewhere) (e : Entity) (keyColumn : String) :
    l.ReadIn (placeOf e ⟨l, keyColumn, []⟩) l.keys.baseColumn where
  correlated base called := by
    rw [Link.correlated, placeOf, LinkKeys.baseColumn.eq_def]
    cases hkeys : l.keys with
    | own foreign target => exact absurd hkeys (hl foreign target)
    | linked | junction => exact ⟨rfl, _, rfl⟩
  baseKeys source linked := by
    refine ⟨?_, Link.baseKeys_base ..⟩
    rw [Link.baseKeys, placeOf]
    cases hkeys : l.keys with
    | own foreign target => exact absurd hkeys (hl foreign target)
    | linked | junction => exact ⟨_, rfl⟩
  populated keys := by
    rw [Linked.filter_select, Linked.ownerCell, placeOf]
    cases hkeys : l.keys with
    | own foreign target => exact absurd hkeys (hl foreign target)
    | linked | junction => exact ⟨_, rfl⟩
  attached row record := by
    rw [Linked.carries]
    cases Json.find l.keys.baseColumn row <;> cases Json.find (Linked.groupColumn l) record <;> simp
  rows T r x hx := by
    rw [Link.rows] at hx
    rw [placeOf, LinkKeys.baseColumn.eq_def]
    cases hkeys : l.keys with
    | own foreign target => exact absurd hkeys (hl foreign target)
    | linked foreign source =>
      simp only [hkeys, List.mem_filter] at hx
      exact ⟨x, hx⟩
    | junction table sourceColumn targetColumn source target =>
      simp only [hkeys, List.mem_flatMap, List.mem_filter, Bool.and_eq_true] at hx
      obtain ⟨j, hj, -, -, hsame⟩ := hx
      exact ⟨j, hj, hsame⟩

namespace Write

variable {b : Base} {column : String}

theorem Base.valueOf_of_isKey {k : Json} (hk : IsKey k) (h : Json.find column b.row = some k) :
    b.valueOf column = k := by
  rw [Base.valueOf, h]
  cases k with
  | str s => simp [lacksValue, hk.1]
  | num n => rfl
  | null | bool | arr | obj => cases hk

theorem Base.valueOf_of_isBlank (h : ∀ v, Json.find column b.row = some v → v.isBlank = true) :
    b.valueOf column = b.key := by
  rw [Base.valueOf]
  cases hfind : Json.find column b.row with
  | none => rfl
  | some v =>
    have hblank := h v hfind
    cases v with
    | null => rfl
    | str s => exact if_pos hblank
    | bool | num | arr | obj => cases hblank

end Write

namespace Session

variable {s : Session} {caller : Caller} {catalog : Catalog} {e : Entity} {t : List Exchange}
  {call : Call} {c : Writing}

/-- Every statement for a link that others hold goes by the value of the base column. -/
theorem Writes.goesBy (h : s.Writes caller catalog e t call c) {x : LinkStatement}
    (hx : x ∈ c.links) (hl : x.link.HeldElsewhere) :
    x.place.GoesBy (c.base.valueOf x.link.keys.baseColumn) x.write ∧
      x.link.ReadIn x.place x.link.keys.baseColumn := by
  cases h with
  | edit planned =>
    obtain ⟨d, -, hx⟩ := List.mem_flatMap.1 hx
    obtain ⟨w, hw, rfl⟩ := List.mem_map.1 hx
    refine ⟨?_, Link.readIn_placeOf hl _ _⟩
    rw [LinkChange.statements] at hw
    split at hw
    · exact goesBy_relate hl d.key w hw
    · exact goesBy_unrelate hl d.key w hw
  | delete found =>
    obtain ⟨l, -, hx⟩ := List.mem_filterMap.1 hx
    rw [leaving?] at hx
    cases hkeys : l.keys with
    | own | linked => simp [hkeys] at hx
    | junction table sourceColumn targetColumn source target =>
      simp only [hkeys, Option.some.injEq] at hx
      subst hx
      have hread := Link.readIn_placeOf hl e ""
      simp only [placeOf, hkeys] at hread
      simp only [LinkKeys.baseColumn, hkeys] at hread ⊢
      exact ⟨.leave, hread⟩

end Session

/-! ## Links and what they go by -/

/-- What is so of a statement for a link that others hold, in the order in which a call writes. -/
structure Writing.LinksBy (c : Writing) (earlier : List LinkStatement) (x : LinkStatement)
    (column : String) : Prop where
  /-- It goes by one value of the record, and links other records to no other value. -/
  goes : x.place.GoesBy (c.base.valueOf column) x.write
  adds : ∀ (E : Engine) T T', E.exec T x.write = some T' → ∀ a k, x.place.Pairs T' a k →
    x.place.Pairs T a k ∨ E.value (c.base.valueOf column) = some a
  /-- Reads of the link go by what rows have in the column. -/
  read : x.link.ReadIn x.place column
  /-- The record has that value, unless it was overwritten or is blank. -/
  own : ∀ E r, c.RowAt E earlier column r → (∀ o, ¬ c.Overwrites column o) →
    ∀ k, IsKey k → Json.find column c.base.row = some k →
    c.base.valueOf column = k ∧ r column = some k.plain
  blank : ∀ E r, c.RowAt E earlier column r → (∀ o, ¬ c.Overwrites column o) →
    (∀ v, Json.find column c.base.row = some v → v.isBlank = true) →
    c.base.valueOf column = c.base.key ∧ (r column = none ∨ r column = some "")
  overwritten : ∀ E r, c.RowAt E earlier column r → ∀ o, c.Overwrites column o →
    r column = E.eval o

/-- What a call that creates, updates or deletes a record or changes its links does to the database
is nothing or the beginning of what it writes for the record. Every statement for a link that others
hold goes by the value that the record was found or inserted with in the column that reads go by.
The record has that value when the statement is carried out, also if it is new, unless an update has
overwritten it. Where the value is blank the statement goes by the key, and no read looks for it. -/
theorem links_go_by_value {s : Session} {caller : Caller} {catalog : Catalog} {e : Entity}
    {call : Call} {t : List Exchange} {r : Result Unit} (hobject : catalog.entity e.id = .ok e)
    (hcall : call.edited? = some e.id ∨ ∃ key, call = .delete e.id key)
    (hmetadata : Exchange.AnsweredWith catalog (LinkMap.ofCatalog s.settings catalog) t)
    (hruns : (call.program s caller).Runs t r) :
    (Exchange.effects e t = [] ∨ ∃ c, s.Writes caller catalog e t call c ∧
      Exchange.effects e t <+: c.statements ∧
      (Exchange.NoneRefused t → Exchange.effects e t = c.statements)) ∧
    ∀ c, s.Writes caller catalog e t call c →
      (∀ earlier x later, c.links = earlier ++ x :: later → x.link.HeldElsewhere →
        c.LinksBy earlier x x.link.keys.baseColumn) ∧
      ∀ v : LinkValues, v.link.HeldElsewhere → currentSelect c.base v =
        some (.plain false [.named (.bare (placeOf e v).key) keyAlias]
          ⟨(placeOf e v).table, none, []⟩
          (some (columnIs (placeOf e v).base (c.base.valueOf v.link.keys.baseColumn)))) := by
  refine ⟨Session.exists_writing hobject hcall hmetadata hruns, fun c hc => ⟨?_, fun v hl => ?_⟩⟩
  · intro earlier x later hlinks hl
    obtain ⟨hgoes, hread⟩ := hc.goesBy (x := x) (by simp [hlinks]) hl
    exact {
      goes := hgoes
      adds := fun E T T' hexec a k => hgoes.pairs_of_exec hexec
      read := hread
      own := fun E r hr hnot k hk hfind =>
        ⟨Base.valueOf_of_isKey hk hfind, (hfind ▸ (hc.cell_of_rowAt hr).kept hnot).eq_plain hk⟩
      blank := fun E r hr hnot hblank =>
        ⟨Base.valueOf_of_isBlank hblank, ((hc.cell_of_rowAt hr).kept hnot).isBlank hblank⟩
      overwritten := fun E r hr => (hc.cell_of_rowAt hr).overwritten }
  · rw [currentSelect_eq hl, hc.entity_eq]

/-- A new note gets its number and a tag, which is linked to the number. -/
theorem links_go_by_value_numbered :
    let tags : Connection := ⟨"tag", none, .many, .many, true, some "n", none⟩
    let note := Entity.new "note" "Note" "NOTE"
      [Field.new "n" "number" .text, Field.new "f" "tags" (.connection tags)]
    let catalog : Catalog := ⟨[note, Entity.new "tag" "Tag" "TAG" []], [], []⟩
    let s : Session := ⟨{}, {}, .tenant⟩
    let system : Caller := ⟨none, "en", true⟩
    let E : Engine := ⟨fun _ => none, fun _ => none, fun _ _ => false⟩
    let values : Json.Members := [("number", .str "7"), ("tags", .str "t1"), ("uuid", .str "n1")]
    let call : Call := .create "note" (.obj values)
    let t := ((call.program s system).transcript
      (Request.steady catalog (LinkMap.ofCatalog {} catalog) fun _ => [[("uuid", .str "n1")]])).1
    let l : Link := ⟨"f", "tags", "tags__relation", .manyToMany, "tag", "TAG", true,
      .junction "JOINMN_NOTE_TAG_tags" "NOTE" "TAG" "number" "uuid"⟩
    let row : Sql.Write := .insert "NOTE" [setTo "uuid" (.str "n1"), setTo "number" (.str "7"),
      ⟨"created_at", .now⟩, ⟨"updated_at", .now⟩]
    let pair : Sql.Write := .insertPair "JOINMN_NOTE_TAG_tags" (setTo "NOTE" (.str "7"))
      (setTo "TAG" (.str "t1"))
    let c : Writing := ⟨⟨note, [("number", .str "7"), ("uuid", .str "n1")], .str "n1"⟩, [row],
      [⟨l, ⟨"JOINMN_NOTE_TAG_tags", "NOTE", "TAG"⟩, pair⟩], []⟩
    (call.program s system).Runs t (.ok ()) ∧ Exchange.effects note t = [row, pair] ∧
      s.Writes system catalog note t call c ∧
      (Place.mk "JOINMN_NOTE_TAG_tags" "NOTE" "TAG").GoesBy (.str "7") pair ∧
      ∃ r, c.RowAt E [] "number" r ∧ r "number" = some "7" := by
  intro tags note catalog s system E values call t l row pair c
  have hsaved : ((call.program s system).transcript
      (Request.steady catalog (LinkMap.ofCatalog {} catalog) fun _ => [[("uuid", .str "n1")]])).2 =
      .ok () := by
    dsimp only [tags, note, catalog, s, system, values, call]
    rfl
  have htranscript : (call.program s system).transcript
      (Request.steady catalog (LinkMap.ofCatalog {} catalog) fun _ => [[("uuid", .str "n1")]]) =
      (t, .ok ()) := Prod.ext rfl hsaved
  obtain ⟨hruns, hanswers⟩ := Program.Runs.iff_transcript.2 htranscript
  have heffects : Exchange.effects note t = [row, pair] := by
    dsimp only [tags, note, catalog, s, system, values, call, t, row, pair]
    rfl
  have hprepared : prepare {} catalog note (LinkMap.resolve {} catalog note).1 values true =
      .ok ⟨[("number", .str "7")], [⟨l, "uuid", [.str "t1"]⟩], []⟩ := by
    dsimp only [tags, note, catalog, values, l]
    rfl
  have hown : (Session.ownColumns note values).Within t [("uuid", .str "n1")] :=
    ⟨[], List.nil_infix, rfl, rfl⟩
  have hbase : Session.newBase note [("uuid", .str "n1"), ("number", .str "7")] 0 = c.base := by
    show Base.mk note (Json.insert "uuid" (.str "n1") [("number", .str "7"), ("uuid", .str "n1")])
      (.str "n1") = c.base
    rfl
  have hplanned := @Session.Planned.create s system catalog note t (.obj values) values _ _ 0 rfl
    hprepared rfl hown
  have hwrites : s.Writes system catalog note t call c := by
    have hwrites := Session.Writes.edit hplanned
    dsimp only [List.cons_append, List.nil_append] at hwrites
    rw [hbase] at hwrites
    exact hwrites
  have hobject : catalog.entity note.id = .ok note := rfl
  have hcall : call.edited? = some note.id := rfl
  have hmetadata : Exchange.AnsweredWith catalog (LinkMap.ofCatalog s.settings catalog) t :=
    (Exchange.answeredWith_of_steady hanswers).1
  obtain ⟨-, hall⟩ := links_go_by_value (s := s) hobject (.inl hcall) hmetadata hruns
  have hheld : l.HeldElsewhere := by simp [Link.HeldElsewhere, l]
  have hby : c.LinksBy [] ⟨l, ⟨"JOINMN_NOTE_TAG_tags", "NOTE", "TAG"⟩, pair⟩ "number" :=
    (hall c hwrites).1 [] _ [] rfl hheld
  have hnot (column : String) : ∀ o, ¬ c.Overwrites column o := by
    rintro o ⟨table, row', tests, hmem, -⟩
    exact Sql.Write.noConfusion (List.mem_singleton.1 hmem)
  let r := E.assign [setTo "uuid" (.str "n1"), setTo "number" (.str "7"), ⟨"created_at", .now⟩,
    ⟨"updated_at", .now⟩] fun _ => none
  have hrun : E.run (fun _ => []) [row] = some (Function.update (fun _ => []) "NOTE" [r]) := by
    dsimp only [row]
    rw [run_singleton, Engine.exec, if_pos (by decide)]
    rfl
  have hstands : c.Stands E (fun _ => []) [] "number" := by
    have hfound : ∀ x ∈ ([] : List Stored), x "uuid" = some "n1" → ¬ c.IsNew ∧
        Engine.Shows (x "number") (some (.str "7")) := List.forall_mem_nil _
    have htime : ∀ table row', .insert table row' ∈ [row] → ⟨"number", .now⟩ ∉ row' := by
      intro table row' hmem
      obtain ⟨-, rfl⟩ := Sql.Write.insert.inj (List.mem_singleton.1 hmem)
      simp [setTo]
    have hkey : IsKey (.str "n1") := ⟨by decide, rfl⟩
    exact ⟨hkey, hfound, hnot _, htime, List.forall_mem_nil _⟩
  have hmem : r ∈ Function.update (fun _ : String => ([] : List Stored)) "NOTE" [r] "NOTE" := by
    rw [Function.update_self]
    exact List.mem_singleton_self r
  have hrow : c.RowAt E [] "number" r := ⟨_, _, hstands, hrun, hmem, rfl⟩
  obtain ⟨hvalue, hcell⟩ := hby.own E r hrow (hnot _) (.str "7") ⟨by decide, rfl⟩ rfl
  exact ⟨hruns, heffects, hwrites, hvalue ▸ hby.goes, r, hrow, hcell⟩

/-- A note without number is given a tag, and another note a tag and a new number: one link goes by
the key of the note, the other by its former number, and neither is found from the note. -/
theorem links_go_by_value_lost :
    let tags : Connection := ⟨"tag", none, .many, .many, true, some "n", none⟩
    let note := Entity.new "note" "Note" "NOTE"
      [Field.new "n" "number" .text, Field.new "f" "tags" (.connection tags)]
    let catalog : Catalog := ⟨[note, Entity.new "tag" "Tag" "TAG" []], [], []⟩
    let s : Session := ⟨{}, {}, .tenant⟩
    let system : Caller := ⟨none, "en", true⟩
    let E : Engine := ⟨fun _ => none, fun _ => none, fun _ _ => false⟩
    let l : Link := ⟨"f", "tags", "tags__relation", .manyToMany, "tag", "TAG", true,
      .junction "JOINMN_NOTE_TAG_tags" "NOTE" "TAG" "number" "uuid"⟩
    let place : Place := ⟨"JOINMN_NOTE_TAG_tags", "NOTE", "TAG"⟩
    let answer (number : Json) := Request.steady catalog (LinkMap.ofCatalog {} catalog) fun _ =>
      [[("number", number), ("uuid", .str "n1")]]
    let first : Call := .relate "note" (.str "n1") "tags" (.str "t1")
    let second : Call := .update "note" (.str "n1")
      (.obj [("number", .str "8"), ("tags", .str "t1")])
    let t := ((first.program s system).transcript (answer .null)).1
    let t' := ((second.program s system).transcript (answer (.str "7"))).1
    let T := Tables.ofCells [("NOTE", [[("uuid", "n1")]]), ("TAG", [[("uuid", "t1")]])]
    let T' := Tables.ofCells
      [("NOTE", [[("uuid", "n1"), ("number", "7")]]), ("TAG", [[("uuid", "t1")]])]
    (LinkMap.resolve {} catalog note).1.get "tags" = some l ∧
    ((first.program s system).Runs t (.ok ()) ∧
      ∃ T₁, E.run T (Exchange.effects note t) = some T₁ ∧ place.Pairs T₁ "n1" "t1" ∧
        ∀ r ∈ T₁ "NOTE", r "number" = none ∧ l.rows T₁ r = []) ∧
    (second.program s system).Runs t' (.ok ()) ∧
      ∃ T₁, E.run T' (Exchange.effects note t') = some T₁ ∧ place.Pairs T₁ "7" "t1" ∧
        ∀ r ∈ T₁ "NOTE", r "number" = some "8" ∧ l.rows T₁ r = [] := by
  intro tags note catalog s system E l place answer first second t t' T T'
  have hlink : (LinkMap.resolve {} catalog note).1.get "tags" = some l := by
    dsimp only [tags, note, catalog, l]
    rfl
  have hruns : (first.program s system).Runs t (.ok ()) := by
    apply Program.Runs.of_transcript
    dsimp only [tags, note, catalog, s, system, first, answer]
    rfl
  have hruns' : (second.program s system).Runs t' (.ok ()) := by
    apply Program.Runs.of_transcript
    dsimp only [tags, note, catalog, s, system, second, answer]
    rfl
  have heffects : Exchange.effects note t = [.insertPair "JOINMN_NOTE_TAG_tags"
      (setTo "NOTE" (.str "n1")) (setTo "TAG" (.str "t1"))] := by
    dsimp only [tags, note, catalog, s, system, first, answer, t]
    rfl
  have heffects' : Exchange.effects note t' =
      [.update "NOTE" [setTo "number" (.str "8"), ⟨"updated_at", .now⟩]
          [columnIs "uuid" (.str "n1")],
        .insertPair "JOINMN_NOTE_TAG_tags" (setTo "NOTE" (.str "7"))
          (setTo "TAG" (.str "t1"))] := by
    dsimp only [tags, note, catalog, s, system, second, answer, t']
    rfl
  refine ⟨hlink, ⟨hruns, ?_⟩, hruns', ?_⟩
  · rw [heffects]
    exact ⟨_, rfl, by decide⟩
  · rw [heffects']
    exact ⟨_, rfl, by decide⟩

end CatalogQuery
