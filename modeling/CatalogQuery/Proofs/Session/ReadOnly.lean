import CatalogQuery.Find
import CatalogQuery.Proofs.Session.Exchanges

/-!
# Programs that only read

Main statements: finding records, whatever is reduced, compiled and attached on the way, is put
together from reads, each sent again as often as the session allows, and so nothing is written in any
of its runs.
-/

namespace CatalogQuery

/-- Whether a request leaves the database as it is. -/
def Request.Reads : Request → Prop
  | .execute _ _ => False
  | _ => True

namespace Program

/-- Whether a program writes nothing, whatever it is answered. -/
def ReadOnly {α : Type} (p : Program α) : Prop :=
  p.Meets (fun _ _ => True) Request.Reads fun _ => True

theorem ReadOnly.writes_eq_nil {α : Type} {p : Program α} {t : List Exchange} {r : Result α}
    (h : p.ReadOnly) (hrun : p.Runs t r) : Exchange.writes t = [] := by
  refine List.filterMap_eq_nil_iff.2 fun x hx => ?_
  have hread := h.sound_of_runs hrun x hx
  obtain ⟨request, answer⟩ := x
  cases request with
  | execute channel statement => exact hread.elim
  | catalog | links | consult | notice | fetch | lock | newKey => rfl

/-- Whether a program hands no statement to the database and takes no lock, whatever it is
answered. -/
def Silent {α : Type} (p : Program α) : Prop :=
  p.Meets (fun _ _ => True) Request.Quiet fun _ => True

namespace Silent

variable {α β : Type}

theorem quiet {p : Program α} {t : List Exchange} {r : Result α} (h : p.Silent)
    (hrun : p.Runs t r) : Exchange.Quiet t := h.sound_of_runs hrun

theorem readOnly {p : Program α} (h : p.Silent) : p.ReadOnly := by
  refine h.weaken fun r hr => ?_
  cases r with
  | execute channel statement => exact hr
  | catalog | links | consult | notice | fetch | lock | newKey => trivial

theorem pure (a : α) : (Pure.pure a : Program α).Silent := trivial

theorem bind {p : Program α} {f : α → Program β} (hp : p.Silent) (hf : ∀ a, (f a).Silent) :
    (p >>= f).Silent := Meets.bind hp fun a _ => hf a

theorem catalog : Program.catalog.Silent := ⟨trivial, fun _ _ => trivial⟩

theorem notice (n : Notice) : (Program.notice n).Silent := ⟨trivial, fun _ _ => trivial⟩

theorem ofResult {r : Result α} : (Program.ofResult r).Silent := Meets.ofResult fun _ _ => trivial

theorem replay (events : List Event) : (Program.replay events).Silent := by
  induction events with
  | nil => trivial
  | cons event rest ih => cases event <;> exact ⟨trivial, fun _ _ => ih⟩

theorem withLinks {f : Links → Traced α} : (Program.withLinks f).Silent :=
  ⟨trivial, fun _ _ => (replay _).bind fun _ => ofResult⟩

theorem linksOf (entity : String) : (Program.linksOf entity).Silent := withLinks

end Silent

theorem ReadOnly.fetch (channel : Channel) (statement : Sql.Select) (retries : Nat) :
    (Program.fetch channel statement retries).ReadOnly := by
  induction retries with
  | zero =>
    refine ⟨trivial, fun answer _ => ?_⟩
    cases answer <;> trivial
  | succ retries ih =>
    refine ⟨trivial, fun answer _ => ?_⟩
    cases answer with
    | ok rows => trivial
    | error failure =>
      dsimp only
      split
      · exact ih
      · trivial

end Program

/-! ## What a session reads -/

namespace Session

/-- How often a session sends a read again at most. The directory has a limit of its own for what it
asks. -/
inductive Rereads (s : Session) : Sql.Select → Nat → Prop
  | own (statement : Sql.Select) : Rereads s statement s.settings.readRetries
  | user (username : String) :
    Rereads s (s.directory.userSelect username) s.directory.readRetries
  | roles (username : String) :
    Rereads s (s.directory.rolesSelect username) s.directory.readRetries
  | scopes (roles : List Role) :
    Rereads s (s.directory.scopesSelect roles) s.directory.readRetries
  | names (usernames : List String) :
    Rereads s (s.directory.namesSelect usernames) s.directory.readRetries

/-- Whether a program is put together from reads that the session sends, locks, and requests that send
nothing. -/
inductive OnlyReads (s : Session) : {α : Type} → Program α → Prop
  | silent {α : Type} {p : Program α} (h : p.Silent) : OnlyReads s p
  | lock (entity key : String) : OnlyReads s (Program.lock entity key)
  | read {statement : Sql.Select} {retries : Nat} (h : s.Rereads statement retries) :
    OnlyReads s (Program.fetch s.channel statement retries)
  | bind {α β : Type} {p : Program α} {f : α → Program β} (hp : OnlyReads s p)
    (hf : ∀ a, OnlyReads s (f a)) : OnlyReads s (p >>= f)

namespace OnlyReads

variable {s : Session} {α β : Type}

theorem readOnly {p : Program α} (h : s.OnlyReads p) : p.ReadOnly := by
  induction h with
  | silent h => exact h.readOnly
  | lock entity key => exact ⟨trivial, fun _ _ => trivial⟩
  | read h => exact .fetch ..
  | bind hp hf ihp ihf => exact Program.Meets.bind ihp fun a _ => ihf a

theorem writes_eq_nil {p : Program α} {t : List Exchange} {r : Result α} (h : s.OnlyReads p)
    (hrun : p.Runs t r) : Exchange.writes t = [] := h.readOnly.writes_eq_nil hrun

theorem pure (a : α) : s.OnlyReads (Pure.pure a) := .silent (.pure a)

theorem map {p : Program α} {f : α → β} (hp : s.OnlyReads p) : s.OnlyReads (f <$> p) := by
  rw [map_eq_pure_bind]
  exact hp.bind fun _ => .pure _

theorem catalog : s.OnlyReads Program.catalog := .silent .catalog

theorem ofResult {r : Result α} : s.OnlyReads (Program.ofResult r) := .silent .ofResult

theorem withLinks {f : Links → Traced α} : s.OnlyReads (Program.withLinks f) := .silent .withLinks

theorem linksOf (entity : String) : s.OnlyReads (Program.linksOf entity) := withLinks

theorem mapM {f : α → Program β} (h : ∀ a, s.OnlyReads (f a)) (as : List α) :
    s.OnlyReads (as.mapM f) := by
  induction as with
  | nil => exact .pure _
  | cons a as ih =>
    rw [List.mapM_cons]
    exact (h a).bind fun _ => ih.bind fun _ => .pure _

end OnlyReads

theorem onlyReads_fetch (s : Session) (statement : Sql.Select) :
    s.OnlyReads (s.fetch statement) := .read (.own statement)

end Session

namespace Directory

variable (s : Session)

theorem onlyReads_user (username : String) :
    s.OnlyReads (s.directory.user s.channel username) :=
  (Session.OnlyReads.read (.user username)).bind fun _ => .pure _

theorem onlyReads_roles (username : String) :
    s.OnlyReads (s.directory.roles s.channel username) :=
  (Session.OnlyReads.read (.roles username)).bind fun _ => .pure _

theorem onlyReads_scopes (roles : List Role) :
    s.OnlyReads (s.directory.scopes s.channel roles) := by
  rw [scopes]
  split
  · exact .pure _
  · exact (Session.OnlyReads.read (.scopes roles)).bind fun _ => .bind .ofResult fun _ => .pure _

theorem onlyReads_scopesOf (username : String) :
    s.OnlyReads (s.directory.scopesOf s.channel username) := by
  refine (onlyReads_user s username).bind fun found => ?_
  cases found with
  | none => exact .ofResult
  | some u =>
    dsimp only
    split
    · exact .ofResult
    · exact (onlyReads_roles s username).bind (onlyReads_scopes s)

theorem onlyReads_displayNames (usernames : List String) :
    s.OnlyReads (s.directory.displayNames s.channel usernames) := by
  rw [displayNames]
  split
  · exact .pure _
  · exact (Session.OnlyReads.read (.names usernames)).bind fun _ => .pure _

end Directory

theorem Session.onlyReads_sight (s : Session) (caller : Caller) :
    s.OnlyReads (s.sight caller) := by
  rw [sight]
  split
  · exact .pure _
  split
  · exact .pure _
  · exact (Directory.onlyReads_scopesOf s _).map

/-! ## Reducing -/

namespace Reduce

open Session (OnlyReads)

theorem onlyReads_walk (s : Session) (env : Links → Compile.Env) (startKey username : String)
    (hops : List (Option Hop × Hop)) (keys : List Json) :
    s.OnlyReads (walk s env startKey username hops keys) := by
  induction hops generalizing keys with
  | nil => exact .pure _
  | cons hop rest ih =>
    obtain ⟨before, hop⟩ := hop
    rw [walk]
    refine OnlyReads.withLinks.bind fun select => (s.onlyReads_fetch select).bind fun rows => ?_
    dsimp only
    split
    · exact .pure _
    · exact ih _

variable (ctx : Context)

theorem onlyReads_placeholder {expand : Expand}
    (hx : ∀ stored, ctx.session.OnlyReads (expand stored)) (e : Entity) (r : Rule) :
    ctx.session.OnlyReads (placeholder ctx expand e r) := by
  have hmembership (stored : StoredSource) (column : Option String) :
      ctx.session.OnlyReads (membership ctx expand e r stored column) := by
    rw [membership]
    exact (hx stored).bind fun reduced => OnlyReads.withLinks.bind fun found =>
      (ctx.session.onlyReads_fetch _).bind fun rows => .pure _
  have hcaller : ctx.session.OnlyReads (sameAsCaller ctx e r) := by
    rw [sameAsCaller]
    refine OnlyReads.withLinks.bind fun found => ?_
    cases found with
    | settled c => exact .pure _
    | chain path startKey => exact (onlyReads_walk ..).bind fun keys => .pure _
  rw [placeholder.eq_def]
  split
  case h_1 | h_2 | h_3 | h_4 | h_5 | h_6 => exact OnlyReads.withLinks.bind fun _ => hmembership _ _
  case h_7 | h_8 => exact .withLinks
  case h_9 | h_10 => exact hcaller
  case h_11 => exact .ofResult

theorem onlyReads_replaceEach {s : Session} {f : Rule → Program Condition}
    (hf : ∀ r, s.OnlyReads (f r)) (p : Rule → Bool) (turns : Nat) (c : Condition) :
    s.OnlyReads (replaceEach p f turns c) := by
  induction turns generalizing c with
  | zero => exact .pure _
  | succ turns ih =>
    rw [replaceEach]
    split
    · exact .pure _
    · refine (hf _).bind fun node => ?_
      split
      · exact ih _
      · exact .pure _

theorem onlyReads_reduceWith {expand : Expand}
    (hx : ∀ stored, ctx.session.OnlyReads (expand stored)) (entity : String) (c : Condition) :
    ctx.session.OnlyReads (reduceWith ctx expand entity c) := by
  have hall (e : Entity) (passes : List (List RuleOp)) (c : Condition) :
      ctx.session.OnlyReads (replaceAll ctx expand e passes c) := by
    induction passes generalizing c with
    | nil => exact .pure _
    | cons ops rest ih =>
      exact (onlyReads_replaceEach (onlyReads_placeholder ctx hx e) _ _ _).bind ih
  exact OnlyReads.ofResult.bind fun e => hall e passes _

theorem onlyReads_reduceTree (levels : Nat) (visiting : List String) (entity : String)
    (c : Condition) : ctx.session.OnlyReads (reduceTree ctx levels visiting entity c) := by
  have hcyclic (chain : List String) : ctx.session.OnlyReads (cyclic chain) :=
    .bind (.silent (.notice _)) fun _ => .ofResult
  induction levels generalizing visiting entity c with
  | zero => exact onlyReads_reduceWith ctx (fun _ => hcyclic _) entity c
  | succ levels ih =>
    refine onlyReads_reduceWith ctx (fun stored => ?_) entity c
    split
    · exact hcyclic _
    · exact ih _ _ _

theorem onlyReads_fieldFilters (links : LinkMap) (fields : List Field)
    (filters : List (String × Condition)) :
    ctx.session.OnlyReads (fieldFilters ctx links fields filters) := by
  induction fields generalizing filters with
  | nil => exact .pure _
  | cons f rest ih =>
    rw [fieldFilters]
    split
    · split
      · exact ih _
      · exact ih _
      · exact (onlyReads_reduceTree ctx _ _ _ _).bind fun c => ih _
    · exact ih _

theorem onlyReads_formulaFilters (s : Session) (entities : List Entity) (caller : Caller) :
    s.OnlyReads (formulaFilters s entities caller) := by
  have hall (ctx : Context) (filters : List (String × Condition)) :
      ctx.session.OnlyReads (entityFilters ctx entities filters) := by
    induction entities generalizing filters with
    | nil => exact .pure _
    | cons e rest ih =>
      exact (OnlyReads.linksOf _).bind fun links =>
        (onlyReads_fieldFilters ctx links e.fields filters).bind ih
  exact OnlyReads.catalog.bind fun catalog => hall ⟨s, catalog, caller, .everything⟩ _

theorem onlyReads_reduce (s : Session) (entity : String) (c : Condition) (caller : Caller) :
    s.OnlyReads (reduce s entity c caller) :=
  OnlyReads.catalog.bind fun catalog => OnlyReads.ofResult.bind fun _ =>
    (s.onlyReads_sight caller).bind fun sight =>
      onlyReads_reduceTree ⟨s, catalog, caller, sight⟩ _ _ _ _

end Reduce

/-! ## Finding -/

open Session (OnlyReads)

theorem Linked.onlyReads_populate (s : Session) (e : Entity) (rows : List Row) (p : Populate)
    (minimal : Bool) : s.OnlyReads (populate s e rows p minimal) := by
  have hnames (target : Entity) (found : List (String × Row)) :
      s.OnlyReads (mergeNames s target found) := by
    rw [mergeNames]
    dsimp only
    split
    · exact .pure _
    split
    · exact .pure _
    · exact (Directory.onlyReads_displayNames s _).bind fun _ => .pure _
  have hread (target : Entity) (l : Link) (keys : List Json) :
      s.OnlyReads (read s target l keys minimal) := by
    rw [read]
    split
    · exact .pure _
    · exact (s.onlyReads_fetch _).bind fun rows => hnames target _
  have hall (catalog : Catalog) (links : List Link) :
      s.OnlyReads (readAll s catalog rows minimal links) := by
    induction links with
    | nil => exact .pure _
    | cons l rest ih =>
      rw [readAll]
      split
      · exact (hread _ l _).bind fun _ => ih.bind fun _ => .pure _
      · exact ih.bind fun _ => .pure _
  rw [populate]
  split
  · exact .pure _
  · exact OnlyReads.catalog.bind fun catalog => (OnlyReads.linksOf e.id).bind fun links =>
      (hall catalog _).bind fun _ => .pure _

namespace Session

theorem onlyReads_formulaFilters (s : Session) (catalog : Catalog) (e : Entity) (o : FindOptions)
    (caller : Caller) : s.OnlyReads (s.formulaFilters catalog e o caller) := by
  rw [formulaFilters]
  split
  · exact Reduce.onlyReads_formulaFilters s _ caller
  · exact (OnlyReads.linksOf e.id).bind fun _ => Reduce.onlyReads_formulaFilters s _ caller

theorem onlyReads_find (s : Session) (entity : String) (o : FindOptions) (caller : Caller) :
    s.OnlyReads (s.find entity o caller) := by
  rw [find]
  refine OnlyReads.catalog.bind fun catalog => OnlyReads.ofResult.bind fun e => ?_
  refine (Reduce.onlyReads_reduce s entity o.condition caller).bind fun c => ?_
  refine (s.onlyReads_formulaFilters catalog e o caller).bind fun filters => ?_
  exact OnlyReads.withLinks.bind fun statement => (s.onlyReads_fetch statement).bind fun rows =>
    Linked.onlyReads_populate s e rows _ _

theorem onlyReads_findOne (s : Session) (entity : String) (key : Json) (p : Populate)
    (caller : Caller) : s.OnlyReads (s.findOne entity key p caller) :=
  (s.onlyReads_find entity _ caller).bind fun _ => .pure _

theorem onlyReads_readRow (s : Session) (e : Entity) (key : Json) (caller : Caller) :
    s.OnlyReads (s.readRow e key caller) := by
  rw [readRow]
  refine OnlyReads.catalog.bind fun catalog => ?_
  refine (s.onlyReads_formulaFilters catalog e _ caller).bind fun filters => ?_
  exact OnlyReads.withLinks.bind fun statement => (s.onlyReads_fetch statement).bind fun rows =>
    .pure _

end Session

end CatalogQuery
