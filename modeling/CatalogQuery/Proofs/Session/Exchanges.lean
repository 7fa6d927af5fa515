import CatalogQuery.Proofs.Session.Outcomes
import CatalogQuery.Reduce.Scopes

/-!
# Runs of programs

A run of a program is the list of its requests with their answers, and what the program comes to.
Main statements: a run is settled by its answers, the runs of a sequence are those of its parts, and a
read is one statement that is repeated only as long as a failure may pass.
-/

namespace CatalogQuery

/-- A request with its answer. -/
structure Exchange where
  request : Request
  answer : request.Answer

namespace Exchange

/-- The statement of a write. -/
def write? : Exchange → Option Sql.Write
  | ⟨.execute _ statement, _⟩ => some statement
  | _ => none

/-- The statements that a run writes with. -/
def writes (t : List Exchange) : List Sql.Write := t.filterMap write?

theorem writes_append (t u : List Exchange) : writes (t ++ u) = writes t ++ writes u :=
  List.filterMap_append

end Exchange

/-- Whether a request hands no statement to the database and takes no lock. -/
def Request.Quiet : Request → Prop
  | .fetch _ _ | .execute _ _ | .lock _ _ => False
  | _ => True

/-- Whether a run hands no statement to the database and takes no lock. -/
def Exchange.Quiet (t : List Exchange) : Prop := ∀ x ∈ t, x.request.Quiet

namespace Exchange.Quiet

theorem nil : Exchange.Quiet [] := by simp [Exchange.Quiet]

theorem append {t u : List Exchange} (ht : Exchange.Quiet t) (hu : Exchange.Quiet u) :
    Exchange.Quiet (t ++ u) := List.forall_mem_append.2 ⟨ht, hu⟩

theorem writes_eq_nil {t : List Exchange} (h : Exchange.Quiet t) : Exchange.writes t = [] := by
  refine List.filterMap_eq_nil_iff.2 fun x hx => ?_
  have hquiet := h x hx
  obtain ⟨request, answer⟩ := x
  cases request with
  | fetch | execute | lock => exact hquiet.elim
  | catalog | links | consult | notice | newKey => rfl

/-- What is quiet in front of the first request that is not. -/
theorem append_cons_inj {t t' u u' : List Exchange} {x x' : Exchange} (ht : Exchange.Quiet t)
    (ht' : Exchange.Quiet t') (hx : ¬ x.request.Quiet) (hx' : ¬ x'.request.Quiet)
    (h : t ++ x :: u = t' ++ x' :: u') : t = t' ∧ x :: u = x' :: u' := by
  induction t generalizing t' with
  | nil =>
    cases t' with
    | nil => exact ⟨rfl, h⟩
    | cons y t' =>
      obtain ⟨rfl, -⟩ := List.cons.inj h
      exact absurd (ht' x (by simp)) hx
  | cons y t ih =>
    cases t' with
    | nil =>
      obtain ⟨rfl, -⟩ := List.cons.inj h
      exact absurd (ht y (by simp)) hx'
    | cons z t' =>
      obtain ⟨rfl, htail⟩ := List.cons.inj h
      obtain ⟨rfl, hrest⟩ :=
        ih (List.forall_mem_cons.1 ht).2 (List.forall_mem_cons.1 ht').2 htail
      exact ⟨rfl, hrest⟩

end Exchange.Quiet

/-- The answers of a tenant whose metadata and database stay as they are. -/
def Request.steady (catalog : Catalog) (links : Links) (rows : Sql.Select → List Row) :
    (r : Request) → r.Answer
  | .catalog => catalog
  | .links => links
  | .fetch _ statement => .ok (rows statement)
  | .execute _ _ => .ok 0
  | .consult _ | .notice _ | .lock _ _ => ()
  | .newKey => ""

/-- What asking for links and giving notices are in a run. -/
def Event.exchange : Event → Exchange
  | .consulted entity => ⟨.consult entity, ()⟩
  | .noticed n => ⟨.notice n, ()⟩

namespace Program

variable {α β : Type}

/-- Whether a program makes the requests of `t`, is answered as there, and comes to `r`. -/
def Runs : Program α → List Exchange → Result α → Prop
  | done a, t, r => t = [] ∧ r = .ok a
  | failed e, t, r => t = [] ∧ r = .error e
  | ask request next, t, r =>
    ∃ answer u, t = ⟨request, answer⟩ :: u ∧ (next answer).Runs u r

/-- A run makes only requests that the program may make. -/
theorem Meets.sound_of_runs {sound : Request → Prop} {post : α → Prop} {p : Program α}
    {t : List Exchange} {r : Result α} (h : p.Meets (fun _ _ => True) sound post)
    (hrun : p.Runs t r) : ∀ x ∈ t, sound x.request := by
  induction p generalizing t with
  | done a | failed e =>
    obtain ⟨rfl, -⟩ := hrun
    simp
  | ask request next ih =>
    obtain ⟨answer, u, rfl, hrest⟩ := hrun
    exact List.forall_mem_cons.2 ⟨h.1, ih answer (h.2 answer trivial) hrest⟩

theorem Yields.of_runs {post : α → Prop} {p : Program α} (hp : p.Yields post) {t : List Exchange}
    {a : α} (h : p.Runs t (.ok a)) : post a := by
  induction p generalizing t with
  | done b =>
    cases h.2
    exact hp
  | failed e => cases h.2
  | ask r next ih =>
    obtain ⟨answer, u, -, h⟩ := h
    exact ih answer (hp.2 answer trivial) h

/-- What a program does when a function answers its requests. -/
def transcript (answer : (r : Request) → r.Answer) : Program α → List Exchange × Result α
  | done a => ([], .ok a)
  | failed e => ([], .error e)
  | ask r next =>
    let rest := transcript answer (next (answer r))
    (⟨r, answer r⟩ :: rest.1, rest.2)

namespace Runs

/-- A program does the same whenever it gets the same answers. -/
theorem iff_transcript {answer : (r : Request) → r.Answer} {p : Program α} {t : List Exchange}
    {r : Result α} : (p.Runs t r ∧ ∀ x ∈ t, x.answer = answer x.request) ↔
      p.transcript answer = (t, r) := by
  induction p generalizing t with
  | done a | failed e =>
    constructor
    · rintro ⟨⟨rfl, rfl⟩, -⟩
      rfl
    · intro h
      cases h
      exact ⟨⟨rfl, rfl⟩, by simp⟩
  | ask request next ih =>
    constructor
    · rintro ⟨⟨a, u, rfl, hrun⟩, hanswers⟩
      rw [List.forall_mem_cons] at hanswers
      obtain ⟨ha, hrest⟩ := hanswers
      have ha : a = answer request := ha
      subst ha
      rw [transcript, (ih _).1 ⟨hrun, hrest⟩]
    · intro h
      cases h
      obtain ⟨hrun, hrest⟩ := (ih (answer request)).2 rfl
      exact ⟨⟨answer request, _, rfl, hrun⟩, List.forall_mem_cons.2 ⟨rfl, hrest⟩⟩

/-- No run of a program is the beginning of another. -/
theorem append_inj {p : Program α} {t t' u u' : List Exchange} {r r' : Result α}
    (h : p.Runs t r) (h' : p.Runs t' r') (heq : t ++ u = t' ++ u') :
    t = t' ∧ u = u' ∧ r = r' := by
  induction p generalizing t t' with
  | done a | failed e =>
    obtain ⟨rfl, rfl⟩ := h
    obtain ⟨rfl, rfl⟩ := h'
    exact ⟨rfl, heq, rfl⟩
  | ask request next ih =>
    obtain ⟨answer, v, rfl, h⟩ := h
    obtain ⟨answer', v', rfl, h'⟩ := h'
    obtain ⟨hx, htail⟩ := List.cons.inj heq
    cases hx
    obtain ⟨rfl, hu, hr⟩ := ih answer h h' htail
    exact ⟨rfl, hu, hr⟩

theorem of_transcript {answer : (r : Request) → r.Answer} {p : Program α} {r : Result α}
    (h : (p.transcript answer).2 = r) : p.Runs (p.transcript answer).1 r := by
  subst h
  exact (iff_transcript.2 rfl).1

theorem ofResult_iff {a r : Result α} {t : List Exchange} :
    (ofResult a).Runs t r ↔ t = [] ∧ r = a := by
  cases a <;> exact Iff.rfl

/-- A sequence fails with its first part, or runs the second part on what the first came to. -/
theorem bind_iff {p : Program α} {f : α → Program β} {t : List Exchange} {r : Result β} :
    (p >>= f).Runs t r ↔ (∃ e, p.Runs t (.error e) ∧ r = .error e) ∨
      ∃ t₁ t₂ a, t = t₁ ++ t₂ ∧ p.Runs t₁ (.ok a) ∧ (f a).Runs t₂ r := by
  induction p generalizing t with
  | done a =>
    constructor
    · intro h
      exact .inr ⟨[], t, a, rfl, ⟨rfl, rfl⟩, h⟩
    · rintro (⟨e, ⟨-, he⟩, -⟩ | ⟨t₁, t₂, a', rfl, ⟨rfl, ha⟩, h⟩)
      · cases he
      · cases ha
        exact h
  | failed e =>
    constructor
    · rintro ⟨rfl, rfl⟩
      exact .inl ⟨e, ⟨rfl, rfl⟩, rfl⟩
    · rintro (⟨e', ⟨rfl, he⟩, rfl⟩ | ⟨t₁, t₂, a, -, ⟨-, ha⟩, -⟩)
      · cases he
        exact ⟨rfl, rfl⟩
      · cases ha
  | ask request next ih =>
    constructor
    · rintro ⟨answer, u, rfl, h⟩
      rcases (ih answer).1 h with ⟨e, hp, rfl⟩ | ⟨t₁, t₂, a, rfl, hp, hf⟩
      · exact .inl ⟨e, ⟨answer, u, rfl, hp⟩, rfl⟩
      · exact .inr ⟨_ :: t₁, t₂, a, rfl, ⟨answer, t₁, rfl, hp⟩, hf⟩
    · rintro (⟨e, ⟨answer, u, rfl, hp⟩, rfl⟩ | ⟨_, t₂, a, rfl, ⟨answer, t₁, rfl, hp⟩, hf⟩)
      · exact ⟨answer, u, rfl, (ih answer).2 (.inl ⟨e, hp, rfl⟩)⟩
      · exact ⟨answer, t₁ ++ t₂, rfl, (ih answer).2 (.inr ⟨t₁, t₂, a, rfl, hp, hf⟩)⟩

theorem bind_ok {p : Program α} {f : α → Program β} {t : List Exchange} {b : β} :
    (p >>= f).Runs t (.ok b) ↔
      ∃ t₁ t₂ a, t = t₁ ++ t₂ ∧ p.Runs t₁ (.ok a) ∧ (f a).Runs t₂ (.ok b) := by
  refine bind_iff.trans (or_iff_right ?_)
  rintro ⟨e, -, h⟩
  cases h

/-- A sequence that starts with a result makes the requests of its second part. -/
theorem ofResult_bind_ok {r : Result α} {f : α → Program β} {t : List Exchange} {b : β} :
    (ofResult r >>= f).Runs t (.ok b) ↔ ∃ a, r = .ok a ∧ (f a).Runs t (.ok b) := by
  rw [bind_ok]
  constructor
  · rintro ⟨_, u, a, rfl, hr, hf⟩
    obtain ⟨rfl, ha⟩ := ofResult_iff.1 hr
    exact ⟨a, ha.symm, hf⟩
  · rintro ⟨a, ha, hf⟩
    exact ⟨[], t, a, rfl, ofResult_iff.2 ⟨rfl, ha.symm⟩, hf⟩

theorem map_iff {p : Program α} {f : α → β} {t : List Exchange} {r : Result β} :
    (f <$> p).Runs t r ↔ ∃ r', p.Runs t r' ∧ r = f <$> r' := by
  rw [map_eq_pure_bind, bind_iff]
  constructor
  · rintro (⟨e, h, rfl⟩ | ⟨t, t₂, a, rfl, h, rfl, rfl⟩)
    · exact ⟨.error e, h, rfl⟩
    · exact ⟨.ok a, by rwa [List.append_nil], rfl⟩
  · rintro ⟨r', h, rfl⟩
    cases r' with
    | error e => exact .inl ⟨e, h, rfl⟩
    | ok a => exact .inr ⟨t, [], a, (List.append_nil t).symm, h, rfl, rfl⟩

/-- What cannot fail and makes known requests first. -/
theorem bind_of_iff {p : Program α} {f : α → Program β} {t : List Exchange} {r : Result β}
    {u : List Exchange} {a : α} (hp : ∀ v q, p.Runs v q ↔ v = u ∧ q = .ok a) :
    (p >>= f).Runs t r ↔ ∃ t', t = u ++ t' ∧ (f a).Runs t' r := by
  constructor
  · intro h
    rcases bind_iff.1 h with ⟨e, hp', -⟩ | ⟨t₁, t₂, a', rfl, hp', hf⟩
    · cases ((hp _ _).1 hp').2
    · obtain ⟨rfl, ha⟩ := (hp _ _).1 hp'
      cases ha
      exact ⟨t₂, rfl, hf⟩
  · rintro ⟨t', rfl, hf⟩
    exact bind_iff.2 (.inr ⟨u, t', a, rfl, (hp _ _).2 ⟨rfl, rfl⟩, hf⟩)

theorem catalog_bind_iff {f : Catalog → Program α} {t : List Exchange} {r : Result α} :
    (Program.catalog >>= f).Runs t r ↔
      ∃ (c : Catalog) (u : List Exchange), t = ⟨.catalog, c⟩ :: u ∧ (f c).Runs u r := Iff.rfl

theorem replay_iff {events : List Event} {t : List Exchange} {r : Result Unit} :
    (replay events).Runs t r ↔ t = events.map Event.exchange ∧ r = .ok () := by
  induction events generalizing t with
  | nil => exact Iff.rfl
  | cons event rest ih =>
    cases event <;>
    · constructor
      · rintro ⟨_, u, rfl, h⟩
        obtain ⟨rfl, rfl⟩ := ih.1 h
        exact ⟨rfl, rfl⟩
      · rintro ⟨rfl, rfl⟩
        exact ⟨(), _, rfl, ih.2 ⟨rfl, rfl⟩⟩

theorem withLinks_iff {f : Links → Traced α} {t : List Exchange} {r : Result α} :
    (withLinks f).Runs t r ↔ ∃ links : Links,
      t = ⟨.links, links⟩ :: (f links).events.map Event.exchange ∧ r = (f links).result := by
  have hrest (links : Links) {u : List Exchange} :
      (bind (replay (f links).events) fun _ => ofResult (f links).result).Runs u r ↔
        u = (f links).events.map Event.exchange ∧ r = (f links).result := by
    refine (bind_of_iff fun _ _ => replay_iff).trans ⟨?_, ?_⟩
    · rintro ⟨u', rfl, h⟩
      obtain ⟨rfl, hr⟩ := ofResult_iff.1 h
      exact ⟨List.append_nil _, hr⟩
    · rintro ⟨rfl, hr⟩
      exact ⟨[], (List.append_nil _).symm, ofResult_iff.2 ⟨rfl, hr⟩⟩
  constructor
  · rintro ⟨links, u, rfl, h⟩
    obtain ⟨rfl, hr⟩ := (hrest links).1 h
    exact ⟨links, rfl, hr⟩
  · rintro ⟨links, rfl, hr⟩
    exact ⟨links, _, rfl, (hrest links).2 ⟨rfl, hr⟩⟩

theorem linksOf_iff {entity : String} {t : List Exchange} {r : Result LinkMap} :
    (linksOf entity).Runs t r ↔ ∃ links : Links,
      t = [⟨.links, links⟩, ⟨.consult entity, ()⟩] ∧ r = links entity := withLinks_iff

end Runs

/-! ## Statements -/

/-- Whether `t` is one read with its repeats, of which the last was answered with `answer`. Every
one before it failed in a way that may pass. -/
def IsRead (channel : Channel) (statement : Sql.Select) (retries : Nat) (t : List Exchange)
    (answer : Except DatabaseFailure (List Row)) : Prop :=
  ∃ failures : List DatabaseFailure, failures.length ≤ retries ∧
    (∀ f ∈ failures, f.isTransient = true) ∧
    t = failures.map (fun f => ⟨.fetch channel statement, .error f⟩) ++
      [⟨.fetch channel statement, answer⟩]

namespace IsRead

variable {channel : Channel} {statement : Sql.Select} {retries : Nat} {t : List Exchange}
  {answer : Except DatabaseFailure (List Row)}

theorem once : IsRead channel statement retries [⟨.fetch channel statement, answer⟩] answer :=
  ⟨[], Nat.zero_le _, by simp, rfl⟩

theorem again {failure : DatabaseFailure} (hf : failure.isTransient = true)
    (h : IsRead channel statement retries t answer) :
    IsRead channel statement (retries + 1)
      (⟨.fetch channel statement, .error failure⟩ :: t) answer := by
  obtain ⟨failures, hlength, htransient, rfl⟩ := h
  exact ⟨failure :: failures, Nat.succ_le_succ hlength,
    List.forall_mem_cons.2 ⟨hf, htransient⟩, rfl⟩

/-- The last answer has come back. -/
theorem mem (h : IsRead channel statement retries t answer) :
    ⟨.fetch channel statement, answer⟩ ∈ t := by
  obtain ⟨failures, -, -, rfl⟩ := h
  exact List.mem_append_right _ List.mem_cons_self

end IsRead

/-- What the database answers a read with. -/
abbrev ReadAnswer := Except DatabaseFailure (List Row)

/-- Whether an answer is a failure that may pass. -/
def ReadAnswer.mayPass : ReadAnswer → Bool
  | .ok _ => false
  | .error failure => failure.isTransient

/-- What a read comes to once it is not sent again. -/
def readResult (statement : Sql.Select) :
    Except DatabaseFailure (List Row) → Result (List Row)
  | .ok rows => .ok rows
  | .error failure => .error (.sql statement.sql.toText failure)

section

variable {channel : Channel} {statement : Sql.Select} {retries : Nat}

theorem fetch_zero : fetch channel statement 0 =
    ask (.fetch channel statement) fun answer => ofResult (readResult statement answer) :=
  congrArg (ask _) (funext fun answer => by cases answer <;> rfl)

theorem fetch_succ : fetch channel statement (retries + 1) =
    ask (.fetch channel statement) fun (answer : ReadAnswer) =>
      if answer.mayPass = true then fetch channel statement retries
      else ofResult (readResult statement answer) := by
  refine congrArg (ask _) (funext fun answer => ?_)
  cases answer <;> rfl

end

namespace Runs

/-- A read is sent once, and again if the answer may pass and there are retries left. -/
theorem fetch_iff {channel : Channel} {statement : Sql.Select} {retries : Nat} {t : List Exchange}
    {r : Result (List Row)} : (Program.fetch channel statement retries).Runs t r ↔
      ∃ (answer : ReadAnswer) (u : List Exchange), t = ⟨.fetch channel statement, answer⟩ :: u ∧
        ((∃ left, retries = left + 1 ∧ answer.mayPass = true ∧
            (Program.fetch channel statement left).Runs u r) ∨
          (retries = 0 ∨ answer.mayPass = false) ∧ u = [] ∧ r = readResult statement answer) := by
  cases retries with
  | zero =>
    rw [fetch_zero]
    constructor
    · rintro ⟨answer, u, rfl, h⟩
      exact ⟨answer, u, rfl, .inr ⟨.inl rfl, ofResult_iff.1 h⟩⟩
    · rintro ⟨answer, u, rfl, ⟨left, hleft, -⟩ | ⟨-, h⟩⟩
      · cases hleft
      · exact ⟨answer, u, rfl, ofResult_iff.2 h⟩
  | succ retries =>
    rw [fetch_succ]
    constructor
    · rintro ⟨answer, u, rfl, h⟩
      refine ⟨answer, u, rfl, ?_⟩
      dsimp only at h
      split at h
      · rename_i hpass
        exact .inl ⟨retries, rfl, hpass, h⟩
      · rename_i hpass
        exact .inr ⟨.inr (Bool.eq_false_iff.2 hpass), ofResult_iff.1 h⟩
    · rintro ⟨answer, u, rfl, h⟩
      refine ⟨answer, u, rfl, ?_⟩
      dsimp only
      rcases h with ⟨left, hleft, hpass, h⟩ | ⟨hstop, h⟩
      · cases hleft
        rwa [if_pos hpass]
      · rw [if_neg (Bool.eq_false_iff.1 (hstop.resolve_left (Nat.succ_ne_zero _)))]
        exact ofResult_iff.2 h

theorem fetch {channel : Channel} {statement : Sql.Select} {retries : Nat} {t : List Exchange}
    {r : Result (List Row)} (h : (Program.fetch channel statement retries).Runs t r) :
    ∃ answer, IsRead channel statement retries t answer ∧ r = readResult statement answer := by
  induction retries generalizing t with
  | zero =>
    obtain ⟨answer, u, rfl, ⟨left, hleft, -⟩ | ⟨-, rfl, rfl⟩⟩ := fetch_iff.1 h
    · cases hleft
    · exact ⟨answer, .once, rfl⟩
  | succ retries ih =>
    obtain ⟨answer, u, rfl, ⟨left, hleft, hpass, h⟩ | ⟨-, rfl, rfl⟩⟩ := fetch_iff.1 h
    · cases hleft
      obtain ⟨last, hread, hr⟩ := ih h
      cases answer with
      | ok rows => cases hpass
      | error failure => exact ⟨last, hread.again hpass, hr⟩
    · exact ⟨answer, .once, rfl⟩

theorem of_answered {channel : Channel} {statement : Sql.Select} {retries : Nat}
    {rows : List Row} :
    (Program.fetch channel statement retries).Runs [⟨.fetch channel statement, .ok rows⟩]
      (.ok rows) := fetch_iff.2 ⟨.ok rows, [], rfl, .inr ⟨.inr rfl, rfl, rfl⟩⟩

theorem fetch_ok {channel : Channel} {statement : Sql.Select} {retries : Nat} {t : List Exchange}
    {rows : List Row} (h : (Program.fetch channel statement retries).Runs t (.ok rows)) :
    IsRead channel statement retries t (.ok rows) := by
  obtain ⟨answer, hread, hr⟩ := fetch h
  cases answer with
  | ok rows' =>
    cases hr
    exact hread
  | error failure => cases hr

theorem execute_ok {channel : Channel} {statement : Sql.Write} {t : List Exchange} {n : Nat}
    (h : (Program.execute channel statement).Runs t (.ok n)) :
    t = [⟨.execute channel statement, .ok n⟩] := by
  obtain ⟨answer, u, rfl, h⟩ := h
  cases answer with
  | ok m =>
    obtain ⟨rfl, h⟩ := h
    cases h
    rfl
  | error failure => cases h.2

end Runs

end Program

end CatalogQuery
