import CatalogQuery.Link.Resolve
import CatalogQuery.Populate
import CatalogQuery.Proofs.Json.Text
import CatalogQuery.Proofs.Session.Exchanges

/-!
# Populating is a join

Linked records are read once for all rows and handed out by the keys that they carry. Main statement:
every row gets, under the name of each connection asked for, the records that a loop over the fetched
ones would pick for it, and nothing else of the rows changes.
-/

namespace CatalogQuery

namespace Linked

/-! ## What a loop over the fetched records gives -/

/-- The column of a fetched record that tells whose it is. -/
def groupColumn (l : Link) : String :=
  match l.keys with
  | .own _ target => target
  | .linked foreign _ => foreign
  | .junction _ _ _ _ _ => ownerColumn

theorem select_snd (l : Link) (keys : List Json) : (select l keys).2 = groupColumn l := by
  rw [select, groupColumn]
  cases l.keys <;> rfl

/-- Whether a row has a key for a link. -/
def HasKey (l : Link) (row : Row) : Prop :=
  ∃ v, Json.find l.keys.baseColumn row = some v ∧ v.isBlank = false

/-- Whether a fetched record carries the key of a row. -/
def carries (l : Link) (row record : Row) : Bool :=
  match Json.find l.keys.baseColumn row, Json.find (groupColumn l) record with
  | some v, some k => !v.isBlank && k.plain == v.plain
  | _, _ => false

/-- The fetched records that are a row's own, in order and dressed for it: all of them, or the first
one. -/
def joined (l : Link) (fetched : List Row) (dress : Row → Row) (row : Row) : Json :=
  let own := (fetched.filter (carries l row)).map dress
  if l.many then .arr (own.map .obj)
  else
    match own with
    | [] => .null
    | first :: _ => .obj first

theorem ownerKeys_eq_nil {rows : List Row} {l : Link} :
    ownerKeys rows l.keys.baseColumn = [] ↔ ∀ row ∈ rows, ¬ HasKey l row := by
  rw [ownerKeys, Json.distinct_eq_nil]
  simp only [List.filter_eq_nil_iff, List.mem_filterMap, HasKey]
  constructor
  · rintro h row hrow ⟨v, hv, hblank⟩
    simpa [hblank] using h v ⟨row, hrow, hv⟩
  · rintro h v ⟨row, hrow, hv⟩ hblank
    exact h row hrow ⟨v, hv, by simpa using hblank⟩

theorem filter_carries_of_not_hasKey {l : Link} {row : Row} (h : ¬ HasKey l row)
    (fetched : List Row) : fetched.filter (carries l row) = [] := by
  refine List.filter_eq_nil_iff.2 fun record _ hcarries => ?_
  unfold carries at hcarries
  split at hcarries
  · rename_i v k hv hk
    simp only [Bool.and_eq_true, Bool.not_eq_true'] at hcarries
    exact h ⟨v, hv, hcarries.1⟩
  · cases hcarries

/-! ## Attaching -/

/-- What is attached to a row depends on its key alone. -/
theorem attached_congr (l : Link) (found : List (String × Row)) {row row' : Row}
    (h : Json.find l.keys.baseColumn row = Json.find l.keys.baseColumn row') :
    attached l found row = attached l found row' := by
  simp only [attached, h]

theorem attached_nil (l : Link) (row : Row) :
    attached l [] row = joined l [] id row := by
  rw [attached, joined]
  cases Json.find l.keys.baseColumn row with
  | none => rfl
  | some v => cases h : v.isBlank <;> simp [h]

/-- A row with everything that was found for it, link by link. -/
def populated (found : List (Link × List (String × Row))) (row : Row) : Row :=
  found.foldl (fun row x => Json.insert x.1.relation (attached x.1 x.2 row) row) row

theorem foldl_attach (found : List (Link × List (String × Row))) (rows : List Row) :
    found.foldl (fun rows (l, found) => attach rows l found) rows = rows.map (populated found) := by
  induction found generalizing rows with
  | nil => exact (List.map_id rows).symm
  | cons x rest ih =>
    obtain ⟨l, found⟩ := x
    rw [List.foldl_cons, ih]
    simp only [attach, List.map_map]
    rfl

theorem find_populated_of_not_mem {found : List (Link × List (String × Row))} {c : String}
    (h : c ∉ found.map (·.1.relation)) (row : Row) :
    Json.find c (populated found row) = Json.find c row := by
  induction found generalizing row with
  | nil => rfl
  | cons x rest ih =>
    rw [List.map_cons, List.mem_cons, not_or] at h
    show Json.find c (populated rest _) = _
    rw [ih h.2, Json.find_insert_of_ne h.1]

/-- The names that records are attached under are different, and none is a column that links are
known by. -/
structure Apart (links : List Link) : Prop where
  nodup : (links.map Link.relation).Nodup
  ne : ∀ l ∈ links, ∀ k ∈ links, k.keys.baseColumn ≠ l.relation

theorem find_populated {found : List (Link × List (String × Row))} (h : Apart (found.map (·.1)))
    {x : Link × List (String × Row)} (hx : x ∈ found) (row : Row) :
    Json.find x.1.relation (populated found row) = some (attached x.1 x.2 row) := by
  induction found generalizing row with
  | nil => cases hx
  | cons y rest ih =>
    have hnodup := h.nodup
    simp only [List.map_cons, List.nodup_cons, List.map_map] at hnodup
    have hrest : Apart (rest.map (·.1)) :=
      ⟨by simpa using hnodup.2, fun l hl k hk => h.ne l (by simp [hl]) k (by simp [hk])⟩
    show Json.find _ (populated rest (Json.insert y.1.relation (attached y.1 y.2 row) row)) = _
    rcases List.mem_cons.1 hx with rfl | hmem
    · -- Nothing that comes later has the same name.
      rw [find_populated_of_not_mem hnodup.1, Json.find_insert_self]
    · rw [ih hrest hmem]
      refine congrArg some (attached_congr _ _ (Json.find_insert_of_ne ?_ _ _))
      exact h.ne y.1 (by simp) x.1 (by simp [List.mem_map_of_mem hmem])

/-- Handing records out by key gives what a loop over them gives. -/
theorem attached_owned (settings : Settings) (target : Entity) (l : Link) (minimal : Bool)
    (name : Row → Row) (fetched : List Row) (row : Row) :
    attached l ((fetched.filterMap (owned settings target l minimal (groupColumn l))).map
        fun x => (x.1, name x.2)) row =
      joined l fetched
        (fun record => name (shape settings target l minimal (Json.erase ownerColumn record))) row := by
  have hown {v : Json} (hv : Json.find l.keys.baseColumn row = some v) (hblank : v.isBlank = false) :
      ((((fetched.filterMap (owned settings target l minimal (groupColumn l))).map
        fun x => (x.1, name x.2)).filter (·.1 == v.plain)).map (·.2)) =
      (fetched.filter (carries l row)).map fun record =>
        name (shape settings target l minimal (Json.erase ownerColumn record)) := by
    induction fetched with
    | nil => rfl
    | cons record rest ih =>
      cases hk : Json.find (groupColumn l) record with
      | none =>
        have hcarries : carries l row record = false := by simp [carries, hv, hk]
        have howned : owned settings target l minimal (groupColumn l) record = none := by
          simp [owned, hk]
        rw [List.filterMap_cons_none howned, List.filter_cons_of_neg (by simp [hcarries]), ih]
      | some k =>
        cases hkblank : k.isBlank with
        | true =>
          -- A blank key is no row's key.
          have hcarries : carries l row record = false := by
            simp [carries, hv, hk, Json.plain_of_isBlank hkblank,
              (Json.plain_ne_empty hblank).symm]
          have howned : owned settings target l minimal (groupColumn l) record = none := by
            simp [owned, hk, hkblank]
          rw [List.filterMap_cons_none howned, List.filter_cons_of_neg (by simp [hcarries]), ih]
        | false =>
          have howned : owned settings target l minimal (groupColumn l) record =
              some (k.plain, shape settings target l minimal (Json.erase ownerColumn record)) := by
            simp [owned, hk, hkblank]
          rw [List.filterMap_cons_some howned, List.map_cons]
          by_cases heq : k.plain = v.plain
          · have hcarries : carries l row record = true := by simp [carries, hv, hk, hblank, heq]
            rw [List.filter_cons_of_pos (by simp [heq]), List.filter_cons_of_pos hcarries,
              List.map_cons, List.map_cons, ih]
          · have hcarries : carries l row record = false := by simp [carries, hv, hk, heq]
            rw [List.filter_cons_of_neg (by simp [heq]),
              List.filter_cons_of_neg (by simp [hcarries]), ih]
  rw [attached, joined]
  by_cases h : HasKey l row
  · obtain ⟨v, hv, hblank⟩ := h
    simp only [hv, hblank, Bool.false_eq_true, if_false, hown hv hblank]
    rfl
  · rw [filter_carries_of_not_hasKey h]
    cases hv : Json.find l.keys.baseColumn row with
    | none => rfl
    | some v =>
      have hblank : v.isBlank = true := by
        by_contra hne
        exact h ⟨v, hv, by simpa using hne⟩
      simp only [hblank, if_true]
      rfl

/-! ## Reading -/

/-- The columns of an object that hold users. -/
def userColumns (target : Entity) : List String := target.userFields.map (·.column)

/-- The names that users are shown by, from the rows of a read of names; of two for one user the
later one counts. -/
def shownNames (rows : List Row) : List (String × String) :=
  rows.reverse.filterMap fun row =>
    match Row.text? row "username", Row.text? row "displayName" with
    | some username, some name => some (username, name)
    | _, _ => none

/-- How the users in some records come to be shown by name: with one read of names, or with none
when there are no users. -/
inductive Named (s : Session) (columns : List String) (records : List Row) :
    List Exchange → (Row → Row) → Prop where
  | unread (h : usernamesIn columns records = []) : Named s columns records [] id
  | read {t : List Exchange} {names : List Row} (h : usernamesIn columns records ≠ [])
      (hread : Program.IsRead s.channel (s.directory.namesSelect (usernamesIn columns records))
        s.directory.readRetries t (.ok names)) :
      Named s columns records t (withNames (shownNames names) columns)

/-- How the records of a link are read for some rows, with the records that come back and what is
made of each: nothing is read when no row has a key, and else all rows are served at once. -/
inductive Batch (s : Session) (catalog : Catalog) (rows : List Row) (minimal : Bool) (l : Link) :
    List Exchange → List Row → (Row → Row) → Prop where
  | unread (h : catalog.entity? l.target = none ∨ ∀ row ∈ rows, ¬ HasKey l row) :
      Batch s catalog rows minimal l [] [] id
  | read {target : Entity} {t u : List Exchange} {fetched : List Row} {name : Row → Row}
      (htarget : catalog.entity? l.target = some target) (hkey : ∃ row ∈ rows, HasKey l row)
      (hread : Program.IsRead s.channel (select l (ownerKeys rows l.keys.baseColumn)).1
        s.settings.readRetries t (.ok fetched))
      (hname : Named s (userColumns target)
        ((fetched.filterMap (owned s.settings target l minimal (groupColumn l))).map (·.2)) u name) :
      Batch s catalog rows minimal l (t ++ u) fetched fun record =>
        name (shape s.settings target l minimal (Json.erase ownerColumn record))

/-- What is sent for a link at most: one read of its records, when some row has a key, and one read
of names, each with its repeats. -/
def Sent (s : Session) (rows : List Row) (l : Link) (t : List Exchange) : Prop :=
  ∃ t₁ t₂, t = t₁ ++ t₂ ∧
    (t₁ = [] ∨ (∃ row ∈ rows, HasKey l row) ∧ ∃ answer,
      Program.IsRead s.channel (select l (ownerKeys rows l.keys.baseColumn)).1
        s.settings.readRetries t₁ answer) ∧
    (t₂ = [] ∨ ∃ usernames answer,
      Program.IsRead s.channel (s.directory.namesSelect usernames) s.directory.readRetries t₂ answer)

theorem Sent.nothing {s : Session} {rows : List Row} {l : Link} : Sent s rows l [] :=
  ⟨[], [], rfl, .inl rfl, .inl rfl⟩

theorem Batch.sent {s : Session} {catalog : Catalog} {rows : List Row} {minimal : Bool} {l : Link}
    {t : List Exchange} {fetched : List Row} {dress : Row → Row}
    (h : Batch s catalog rows minimal l t fetched dress) : Sent s rows l t := by
  cases h with
  | unread h => exact .nothing
  | @read target t u fetched name htarget hkey hread hname =>
    refine ⟨t, u, rfl, .inr ⟨hkey, _, hread⟩, ?_⟩
    cases hname with
    | unread h => exact .inl rfl
    | read h hread => exact .inr ⟨_, _, hread⟩

section Runs

variable {s : Session} {target : Entity} {l : Link} {catalog : Catalog} {rows : List Row}
  {minimal : Bool} {t : List Exchange}

theorem usernamesIn_nil {columns : List String} {records : List Row}
    (h : columns.isEmpty ∨ records.isEmpty) : usernamesIn columns records = [] := by
  rcases h with h | h
  · rw [List.isEmpty_iff.1 h]
    simp [usernamesIn, List.flatMap]
  · rw [List.isEmpty_iff.1 h]
    rfl

theorem displayNames_of_users {d : Directory} {channel : Channel} {usernames : List String}
    (h : usernames ≠ []) : d.displayNames channel usernames =
      shownNames <$> Program.fetch channel (d.namesSelect usernames) d.readRetries := by
  rw [Directory.displayNames, if_neg (by simpa using h)]
  rfl

theorem mergeNames_of_nobody {found : List (String × Row)}
    (h : usernamesIn (userColumns target) (found.map (·.2)) = []) :
    mergeNames s target found = pure found := by
  unfold userColumns at h
  rw [mergeNames]
  split
  · rfl
  · dsimp only
    rw [h]
    rfl

/-- The names of all users in the records are read at once. -/
theorem mergeNames_of_users {found : List (String × Row)}
    (h : usernamesIn (userColumns target) (found.map (·.2)) ≠ []) :
    mergeNames s target found = (fun names => found.map fun x =>
        (x.1, withNames (shownNames names) (userColumns target) x.2)) <$>
      Program.fetch s.channel
        (s.directory.namesSelect (usernamesIn (userColumns target) (found.map (·.2))))
        s.directory.readRetries := by
  have hcolumns : ¬((userColumns target).isEmpty ∨ found.isEmpty) := by
    intro hempty
    apply h
    apply usernamesIn_nil
    simpa using hempty
  unfold userColumns at h hcolumns ⊢
  rw [mergeNames]
  dsimp only
  rw [if_neg hcolumns, if_neg (by simpa using h), displayNames_of_users h]
  -- The names are made of the rows, and the records of the names.
  show Program.bind (Program.bind _ _) _ = Program.bind _ _
  rw [Program.bind_assoc]
  rfl

/-- Showing users by name sends one read at most. -/
theorem mergeNames_runs {found : List (String × Row)} {r : Result (List (String × Row))}
    (h : (mergeNames s target found).Runs t r) :
    (t = [] ∨ ∃ usernames answer,
      Program.IsRead s.channel (s.directory.namesSelect usernames) s.directory.readRetries t answer) ∧
    ∀ found', r = .ok found' → ∃ name,
      Named s (userColumns target) (found.map (·.2)) t name ∧
        found' = found.map fun x => (x.1, name x.2) := by
  by_cases hnobody : usernamesIn (userColumns target) (found.map (·.2)) = []
  · rw [mergeNames_of_nobody hnobody] at h
    obtain ⟨rfl, rfl⟩ := h
    refine ⟨.inl rfl, ?_⟩
    intro found' hfound
    cases hfound
    exact ⟨id, .unread hnobody, by simp⟩
  · rw [mergeNames_of_users hnobody] at h
    obtain ⟨rows, hfetch, rfl⟩ := Program.Runs.map_iff.1 h
    obtain ⟨answer, hread, rfl⟩ := Program.Runs.fetch hfetch
    refine ⟨.inr ⟨_, answer, hread⟩, ?_⟩
    intro found' hfound
    cases answer with
    | error failure => cases hfound
    | ok rows =>
      cases hfound
      exact ⟨_, .read hnobody hread, rfl⟩

/-- The records of one link, for all rows. -/
def readOne (s : Session) (catalog : Catalog) (rows : List Row) (minimal : Bool) (l : Link) :
    Program (List (String × Row)) :=
  match catalog.entity? l.target with
  | some target => read s target l (ownerKeys rows l.keys.baseColumn) minimal
  | none => pure []

theorem readAll_cons (l : Link) (rest : List Link) :
    readAll s catalog rows minimal (l :: rest) =
      readOne s catalog rows minimal l >>= fun found =>
        readAll s catalog rows minimal rest >>= fun others => pure ((l, found) :: others) := by
  rw [readAll, readOne]
  cases catalog.entity? l.target <;> rfl

/-- What reading the records of one link sends and finds. -/
theorem readOne_runs {r : Result (List (String × Row))}
    (h : (readOne s catalog rows minimal l).Runs t r) :
    Sent s rows l t ∧ ∀ found, r = .ok found → ∃ fetched dress,
      Batch s catalog rows minimal l t fetched dress ∧
      ∀ row, attached l found row = joined l fetched dress row := by
  have hunread (hnone : catalog.entity? l.target = none ∨ ∀ row ∈ rows, ¬ HasKey l row)
      (h : (pure [] : Program (List (String × Row))).Runs t r) :
      Sent s rows l t ∧ ∀ found, r = .ok found → ∃ fetched dress,
        Batch s catalog rows minimal l t fetched dress ∧
        ∀ row, attached l found row = joined l fetched dress row := by
    obtain ⟨rfl, rfl⟩ := h
    refine ⟨.nothing, ?_⟩
    intro found hfound
    cases hfound
    exact ⟨[], id, .unread hnone, attached_nil l⟩
  rw [readOne] at h
  cases htarget : catalog.entity? l.target with
  | none =>
    rw [htarget] at h
    exact hunread (.inl htarget) h
  | some target =>
    simp only [htarget, read] at h
    split at h
    · rename_i hkeys
      exact hunread (.inr (ownerKeys_eq_nil.1 (List.isEmpty_iff.1 hkeys))) h
    · rename_i hkeys
      have hkey : ∃ row ∈ rows, HasKey l row := by
        by_contra hne
        push Not at hne
        exact hkeys (List.isEmpty_iff.2 (ownerKeys_eq_nil.2 hne))
      rw [select_snd] at h
      rcases Program.Runs.bind_iff.1 h with ⟨e, hfetch, rfl⟩ | ⟨t₁, t₂, fetched, rfl, hfetch, h⟩
      · obtain ⟨answer, hread, -⟩ := Program.Runs.fetch hfetch
        exact ⟨⟨t, [], (List.append_nil t).symm, .inr ⟨hkey, answer, hread⟩, .inl rfl⟩, by simp⟩
      · have hread := Program.Runs.fetch_ok hfetch
        obtain ⟨hsent, hfound⟩ := mergeNames_runs h
        refine ⟨⟨t₁, t₂, rfl, .inr ⟨hkey, _, hread⟩, hsent⟩, ?_⟩
        intro found hr
        obtain ⟨name, hname, rfl⟩ := hfound found hr
        exact ⟨fetched, _, .read htarget hkey hread hname,
          attached_owned s.settings target l minimal name fetched⟩

/-- What reading the records of all links sends, link by link, and finds. -/
theorem readAll_runs {links : List Link} {r : Result (List (Link × List (String × Row)))}
    (h : (readAll s catalog rows minimal links).Runs t r) :
    ∃ segments, t = segments.flatten ∧ List.Forall₂ (Sent s rows) links segments ∧
      ∀ found, r = .ok found → found.map (·.1) = links ∧
        List.Forall₂ (fun x segment => ∃ fetched dress,
          Batch s catalog rows minimal x.1 segment fetched dress ∧
          ∀ row, attached x.1 x.2 row = joined x.1 fetched dress row) found segments := by
  induction links generalizing t r with
  | nil =>
    obtain ⟨rfl, rfl⟩ := h
    refine ⟨[], rfl, .nil, ?_⟩
    intro found hfound
    cases hfound
    exact ⟨rfl, .nil⟩
  | cons l rest ih =>
    have hnothing : List.Forall₂ (Sent s rows) rest (rest.map fun _ => []) :=
      List.forall₂_map_right_iff.2 (List.forall₂_same.2 fun _ _ => .nothing)
    rw [readAll_cons] at h
    rcases Program.Runs.bind_iff.1 h with ⟨e, hone, rfl⟩ | ⟨t₁, t₂, found, rfl, hone, h⟩
    · -- What comes after a failure is not read.
      exact ⟨t :: rest.map fun _ => [], by simp, .cons (readOne_runs hone).1 hnothing, by simp⟩
    · obtain ⟨hsent, hfound⟩ := readOne_runs hone
      rcases Program.Runs.bind_iff.1 h with ⟨e, hall, rfl⟩ | ⟨t₂, t₃, others, rfl, hall, rfl, rfl⟩
      · obtain ⟨segments, rfl, hrest, -⟩ := ih hall
        exact ⟨t₁ :: segments, rfl, .cons hsent hrest, by simp⟩
      · obtain ⟨segments, rfl, hrest, hothers⟩ := ih hall
        obtain ⟨hlinks, hbatches⟩ := hothers others rfl
        refine ⟨t₁ :: segments, by simp, .cons hsent hrest, ?_⟩
        intro found' hfound'
        cases hfound'
        exact ⟨by simp [hlinks], .cons (hfound found rfl) hbatches⟩

end Runs

/-- What populating makes of rows: their number, their order and whatever is not under the name of a
wanted link stay, and each wanted link has been read for all rows at once and gives every row the
records that are its own. -/
structure Joins (s : Session) (catalog : Catalog) (rows : List Row) (minimal : Bool)
    (wanted : List Link) (segments : List (List Exchange)) (rows' : List Row) : Prop where
  others : List.Forall₂ (fun row row' => ∀ c, c ∉ wanted.map Link.relation →
    Json.find c row' = Json.find c row) rows rows'
  each : List.Forall₂ (fun l segment => ∃ fetched dress,
    Batch s catalog rows minimal l segment fetched dress ∧
    List.Forall₂ (fun row row' => Json.find l.relation row' = some (joined l fetched dress row))
      rows rows') wanted segments

theorem joins_of_found {s : Session} {catalog : Catalog} {rows : List Row} {minimal : Bool}
    {wanted : List Link} {segments : List (List Exchange)}
    {found : List (Link × List (String × Row))} (hlinks : found.map (·.1) = wanted)
    (hapart : Apart wanted)
    (hbatches : List.Forall₂ (fun x segment => ∃ fetched dress,
      Batch s catalog rows minimal x.1 segment fetched dress ∧
      ∀ row, attached x.1 x.2 row = joined x.1 fetched dress row) found segments) :
    Joins s catalog rows minimal wanted segments (rows.map (populated found)) := by
  subst hlinks
  constructor
  · rw [List.forall₂_map_right_iff, List.forall₂_same]
    intro row _ c hc
    exact find_populated_of_not_mem (by simpa using hc) row
  · rw [List.forall₂_map_left_iff]
    -- Membership is kept beside the batches, as what is found under a name depends on all links.
    refine ((List.forall₂_and_left found segments).2 ⟨fun x hx => hx, hbatches⟩).imp ?_
    rintro x segment ⟨hx, fetched, dress, hbatch, hattached⟩
    refine ⟨fetched, dress, hbatch, ?_⟩
    rw [List.forall₂_map_right_iff, List.forall₂_same]
    intro row _
    rw [find_populated hapart hx, hattached]

/-- Rows stay as they are when nothing is asked for. Else the links of the object are, and the records
of the wanted ones are read before anything is attached. -/
theorem populate_runs {s : Session} {e : Entity} {rows : List Row} {p : Populate} {minimal : Bool}
    {t : List Exchange} {r : Result (List Row)} (h : (populate s e rows p minimal).Runs t r) :
    ((rows = [] ∨ p = .none) ∧ t = [] ∧ r = .ok rows) ∨
    ∃ (catalog : Catalog) (links : Links) (reads : List Exchange),
      t = ⟨.catalog, catalog⟩ :: ⟨.links, links⟩ :: ⟨.consult e.id, ()⟩ :: reads ∧
      ((∃ failure, links e.id = .error failure ∧ reads = [] ∧ r = .error failure) ∨
      ∃ map read, links e.id = .ok map ∧
        (readAll s catalog rows minimal (map.links.filter fun l =>
          p.includes l.field l.column)).Runs reads read ∧
        r = (fun found => rows.map (populated found)) <$> read) := by
  rw [populate] at h
  split at h
  · rename_i hnone
    exact .inl ⟨by simpa using hnone, h⟩
  right
  obtain ⟨catalog, u, rfl, h₂⟩ := Program.Runs.catalog_bind_iff.1 h
  rcases Program.Runs.bind_iff.1 h₂ with ⟨failure, hlinks, rfl⟩ | ⟨t₁, t₂, map, rfl, hlinks, h₃⟩
  · obtain ⟨links, rfl, hfailure⟩ := Program.Runs.linksOf_iff.1 hlinks
    exact ⟨catalog, links, [], rfl, .inl ⟨failure, hfailure.symm, rfl, rfl⟩⟩
  obtain ⟨links, rfl, hmap⟩ := Program.Runs.linksOf_iff.1 hlinks
  rcases Program.Runs.bind_iff.1 h₃ with ⟨failure, hread, rfl⟩ | ⟨t₁, t₂, found, rfl, hread, rfl, rfl⟩
  · exact ⟨catalog, links, t₂, rfl, .inr ⟨map, .error failure, hmap.symm, hread, rfl⟩⟩
  · refine ⟨catalog, links, t₁, by simp, .inr ⟨map, .ok found, hmap.symm, hread, ?_⟩⟩
    rw [foldl_attach]
    rfl

/-- Rows that were populated have been given what was read for each wanted link. -/
theorem joins_of_populate {s : Session} {e : Entity} {rows rows' : List Row} {p : Populate}
    {minimal : Bool} {t : List Exchange} (h : (populate s e rows p minimal).Runs t (.ok rows')) :
    ((rows = [] ∨ p = .none) ∧ rows' = rows) ∨
    ∃ (catalog : Catalog) (links : Links) (map : LinkMap) (segments : List (List Exchange)),
      t = ⟨.catalog, catalog⟩ :: ⟨.links, links⟩ :: ⟨.consult e.id, ()⟩ :: segments.flatten ∧
      links e.id = .ok map ∧
      let wanted := map.links.filter fun l => p.includes l.field l.column
      (Apart wanted → Joins s catalog rows minimal wanted segments rows') := by
  rcases populate_runs h with ⟨hnone, -, hrows⟩ | ⟨catalog, links, reads, rfl, hread⟩
  · cases hrows
    exact .inl ⟨hnone, rfl⟩
  right
  rcases hread with ⟨failure, -, -, hfailed⟩ | ⟨map, read, hmap, hread, hrows⟩
  · cases hfailed
  cases read with
  | error failure => cases hrows
  | ok found =>
    cases hrows
    obtain ⟨segments, rfl, -, hfound⟩ := readAll_runs hread
    obtain ⟨hwanted, hbatches⟩ := hfound found rfl
    exact ⟨catalog, links, map, segments, rfl, hmap,
      fun hapart => joins_of_found hwanted hapart hbatches⟩

end Linked

end CatalogQuery
