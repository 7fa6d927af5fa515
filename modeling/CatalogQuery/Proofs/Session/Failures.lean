import CatalogQuery.Proofs.Session.Exchanges
import CatalogQuery.Session.Tenant

/-!
# What a failure can be

With which errors a traced result or a program can fail, and over which placeholders, as one that was
never replaced. Main statements: the rules by which such a statement about a sequence follows from
those about its parts, while the metadata stays as it is.
-/

namespace CatalogQuery

/-- The error of a placeholder that was not replaced. -/
abbrev QueryError.unreplaced (op : RuleOp) (key : String) : QueryError :=
  .invalidCondition (.unresolvedPlaceholder op key)

/-- Whether an error, if it is that of a placeholder which was not replaced, is over one whose operator
and key satisfy `blame`. -/
def QueryError.Over (blame : RuleOp → String → Prop) (e : QueryError) : Prop :=
  ∀ op key, e = .unreplaced op key → blame op key

/-- Whether an error is neither that of a placeholder which was not replaced nor that of a stored filter
which is reached from itself. -/
def QueryError.isPlain : QueryError → Bool
  | .invalidCondition (.unresolvedPlaceholder _ _) => false
  | .configuration (.cyclicFilters _) => false
  | _ => true

theorem QueryError.over_of_isPlain {blame : RuleOp → String → Prop} (e : QueryError)
    (h : e.isPlain = true) : e.Over blame := by
  rintro op key rfl
  cases h

theorem Catalog.isPlain_entity {catalog : Catalog} {id : String} {e : QueryError}
    (h : catalog.entity id = .error e) : e.isPlain = true := by
  rw [Catalog.entity] at h
  split at h <;> cases h
  rfl

namespace Traced

variable {α β γ : Type} {E : QueryError → Prop} {blame : RuleOp → String → Prop}

/-- Whether every error that a traced result fails with satisfies `E`. -/
def FailsAs (t : Traced α) (E : QueryError → Prop) : Prop := ∀ e, t.result = .error e → E e

/-- Whether a traced result fails only over placeholders whose operator and key satisfy `blame`, if it
fails over one that was not replaced. -/
def FailsOver (t : Traced α) (blame : RuleOp → String → Prop) : Prop :=
  ∀ op key, t.result = .error (.unreplaced op key) → blame op key

theorem failsAs_over {t : Traced α} : t.FailsAs (QueryError.Over blame) ↔ t.FailsOver blame :=
  ⟨fun h op key he => h _ he op key rfl, fun h _ he op key heq => h op key (heq ▸ he)⟩

namespace FailsAs

theorem pure {a : α} : (Pure.pure a : Traced α).FailsAs E := by
  rintro _ ⟨⟩

theorem notice {n : Notice} : (Traced.notice n).FailsAs E := by
  rintro _ ⟨⟩

theorem fail {e : QueryError} (h : E e) : (Traced.fail e : Traced α).FailsAs E := by
  intro _ he
  cases he
  exact h

theorem ofResult {r : Result α} (h : ∀ e, r = .error e → E e) : (ofResult r).FailsAs E := h

theorem bind {t : Traced α} {f : α → Traced β} (ht : t.FailsAs E)
    (hf : ∀ a, t.result = .ok a → (f a).FailsAs E) : (t >>= f).FailsAs E := by
  intro e h
  rcases result_bind_error.1 h with h | ⟨a, ha, h⟩
  · exact ht e h
  · exact hf a ha e h

theorem mapM {f : γ → Traced α} {cs : List γ} (h : ∀ c ∈ cs, (f c).FailsAs E) :
    (cs.mapM f).FailsAs E := by
  induction cs with
  | nil => exact .pure
  | cons c cs ih =>
    rw [List.forall_mem_cons] at h
    rw [List.mapM_cons]
    exact h.1.bind fun b _ => (ih h.2).bind fun bs _ => .pure

end FailsAs

namespace FailsOver

theorem pure {a : α} : (Pure.pure a : Traced α).FailsOver blame := failsAs_over.1 .pure

theorem notice {n : Notice} : (Traced.notice n).FailsOver blame := failsAs_over.1 .notice

theorem bind {t : Traced α} {f : α → Traced β} (ht : t.FailsOver blame)
    (hf : ∀ a, t.result = .ok a → (f a).FailsOver blame) : (t >>= f).FailsOver blame :=
  failsAs_over.1 ((failsAs_over.2 ht).bind fun a ha => failsAs_over.2 (hf a ha))

theorem mono {blame' : RuleOp → String → Prop} {t : Traced α} (ht : t.FailsOver blame)
    (h : ∀ op key, blame op key → blame' op key) : t.FailsOver blame' :=
  fun op key he => h op key (ht op key he)

end FailsOver

end Traced

/-- Whether an exchange is one with a tenant whose metadata is as it is now. -/
def Exchange.Under (t : Tenant) : Exchange → Prop
  | ⟨.catalog, c⟩ => c = t.catalog
  | ⟨.links, links⟩ => links = t.links
  | _ => True

theorem Exchange.Under.of_answer {t : Tenant} {rows : Sql.Select → List Row} {x : Exchange}
    (h : x.answer = Request.steady t.catalog t.links rows x.request) : x.Under t := by
  obtain ⟨request, answer⟩ := x
  cases request <;> first | exact h | trivial

namespace Program

variable {α β γ : Type} {t : Tenant} {E : QueryError → Prop} {blame : RuleOp → String → Prop}

/-- What a program does with a database that answers each read in its own way. -/
theorem exists_run_under {p : Program α} {rows : Sql.Select → List Row} {r : Result α}
    (h : (p.transcript (Request.steady t.catalog t.links rows)).2 = r) :
    ∃ u, (∀ x ∈ u, x.Under t) ∧ p.Runs u r := by
  have hrun : p.transcript (Request.steady t.catalog t.links rows) = (_, r) := Prod.ext rfl h
  obtain ⟨hruns, hanswers⟩ := Runs.iff_transcript.2 hrun
  exact ⟨_, fun x hx => .of_answer (hanswers x hx), hruns⟩

/-- Whether a program can come to a value while the metadata stays as it is. -/
def Gives (t : Tenant) (p : Program α) (a : α) : Prop :=
  ∃ u : List Exchange, (∀ x ∈ u, x.Under t) ∧ p.Runs u (.ok a)

/-- Whether every error that a program fails with while the metadata stays as it is satisfies `E`. -/
def FailsAs (t : Tenant) (p : Program α) (E : QueryError → Prop) : Prop :=
  ∀ (u : List Exchange) e, (∀ x ∈ u, x.Under t) → p.Runs u (.error e) → E e

/-- Whether a program fails only over placeholders whose operator and key satisfy `blame`, if it fails
over one that was not replaced while the metadata stays as it is. -/
def FailsOver (t : Tenant) (p : Program α) (blame : RuleOp → String → Prop) : Prop :=
  ∀ (u : List Exchange) op key, (∀ x ∈ u, x.Under t) → p.Runs u (.error (.unreplaced op key)) →
    blame op key

theorem failsAs_over {p : Program α} : p.FailsAs t (QueryError.Over blame) ↔ p.FailsOver t blame :=
  ⟨fun h u op key hu hr => h u _ hu hr op key rfl,
    fun h u _ hu hr op key heq => h u op key hu (heq ▸ hr)⟩

theorem Yields.of_gives {post : α → Prop} {p : Program α} (hp : p.Yields post) {a : α}
    (h : p.Gives t a) : post a := by
  obtain ⟨u, -, h⟩ := h
  exact hp.of_runs h

namespace Gives

theorem bind_iff {p : Program α} {f : α → Program β} {b : β} :
    (p >>= f).Gives t b ↔ ∃ a, p.Gives t a ∧ (f a).Gives t b := by
  constructor
  · rintro ⟨u, hu, h⟩
    obtain ⟨u₁, u₂, a, rfl, hp, hf⟩ := Runs.bind_ok.1 h
    rw [List.forall_mem_append] at hu
    exact ⟨a, ⟨u₁, hu.1, hp⟩, ⟨u₂, hu.2, hf⟩⟩
  · rintro ⟨a, ⟨u₁, hu₁, hp⟩, ⟨u₂, hu₂, hf⟩⟩
    exact ⟨u₁ ++ u₂, List.forall_mem_append.2 ⟨hu₁, hu₂⟩, Runs.bind_ok.2 ⟨u₁, u₂, a, rfl, hp, hf⟩⟩

theorem ofResult_iff {r : Result α} {a : α} : (ofResult r).Gives t a ↔ r = .ok a := by
  constructor
  · rintro ⟨u, -, h⟩
    exact (Runs.ofResult_iff.1 h).2.symm
  · rintro rfl
    exact ⟨[], by simp, rfl, rfl⟩

theorem pure_iff {a b : α} : (Pure.pure a : Program α).Gives t b ↔ b = a :=
  (ofResult_iff (r := .ok a)).trans (by rw [Except.ok.injEq, eq_comm])

theorem catalog {c : Catalog} (h : Program.catalog.Gives t c) : c = t.catalog := by
  obtain ⟨u, hu, answer, v, rfl, -, hc⟩ := h
  cases hc
  exact hu _ List.mem_cons_self

theorem withLinks {f : Links → Traced α} {a : α} (h : (withLinks f).Gives t a) :
    (f t.links).result = .ok a := by
  obtain ⟨u, hu, h⟩ := h
  obtain ⟨links, rfl, ha⟩ := Runs.withLinks_iff.1 h
  have hlinks : links = t.links := hu _ List.mem_cons_self
  rw [← hlinks, ha]

end Gives

namespace FailsAs

theorem pure {a : α} : (Pure.pure a : Program α).FailsAs t E := by
  rintro u e - ⟨-, h⟩
  cases h

theorem ofResult {r : Result α} (h : ∀ e, r = .error e → E e) : (ofResult r).FailsAs t E := by
  intro u e _ hr
  exact h e (Runs.ofResult_iff.1 hr).2.symm

theorem bind {p : Program α} {f : α → Program β} (hp : p.FailsAs t E)
    (hf : ∀ a, p.Gives t a → (f a).FailsAs t E) : (p >>= f).FailsAs t E := by
  intro u e hu h
  rcases Runs.bind_iff.1 h with ⟨e', h, he⟩ | ⟨u₁, u₂, a, rfl, ha, h⟩
  · cases he
    exact hp u e hu h
  · rw [List.forall_mem_append] at hu
    exact hf a ⟨u₁, hu.1, ha⟩ u₂ e hu.2 h

theorem mapM {f : γ → Program α} {cs : List γ} (h : ∀ c ∈ cs, (f c).FailsAs t E) :
    (cs.mapM f).FailsAs t E := by
  induction cs with
  | nil => exact .pure
  | cons c cs ih =>
    rw [List.forall_mem_cons] at h
    rw [List.mapM_cons]
    exact h.1.bind fun b _ => (ih h.2).bind fun bs _ => .pure

theorem catalog : Program.catalog.FailsAs t E := by
  rintro u e - ⟨answer, v, -, -, h⟩
  cases h

theorem notice (n : Notice) : (Program.notice n).FailsAs t E := by
  rintro u e - ⟨answer, v, -, -, h⟩
  cases h

theorem withLinks {f : Links → Traced α} (h : (f t.links).FailsAs E) :
    (withLinks f).FailsAs t E := by
  intro u e hu hr
  obtain ⟨links, rfl, he⟩ := Runs.withLinks_iff.1 hr
  have hlinks : links = t.links := hu _ List.mem_cons_self
  subst hlinks
  exact h e he.symm

/-- A read fails with what the database answers. -/
theorem fetch (hE : ∀ e, e.isPlain = true → E e) {channel : Channel} {statement : Sql.Select}
    {retries : Nat} : (Program.fetch channel statement retries).FailsAs t E := by
  intro u e _ h
  obtain ⟨answer, -, he⟩ := Runs.fetch h
  cases answer <;> cases he
  exact hE _ rfl

end FailsAs

namespace FailsOver

theorem pure {a : α} : (Pure.pure a : Program α).FailsOver t blame := failsAs_over.1 .pure

theorem bind {p : Program α} {f : α → Program β} (hp : p.FailsOver t blame)
    (hf : ∀ a, p.Gives t a → (f a).FailsOver t blame) : (p >>= f).FailsOver t blame :=
  failsAs_over.1 ((failsAs_over.2 hp).bind fun a ha => failsAs_over.2 (hf a ha))

theorem catalog : Program.catalog.FailsOver t blame := failsAs_over.1 .catalog

/-- An object that is not there is no placeholder. -/
theorem entity {catalog : Catalog} (id : String) :
    (ofResult (catalog.entity id)).FailsOver t blame :=
  failsAs_over.1 (.ofResult fun err h => err.over_of_isPlain (Catalog.isPlain_entity h))

theorem mono {blame' : RuleOp → String → Prop} {p : Program α} (hp : p.FailsOver t blame)
    (h : ∀ op key, blame op key → blame' op key) : p.FailsOver t blame' :=
  fun u op key hu hr => h op key (hp u op key hu hr)

theorem withLinks {f : Links → Traced α} (h : (f t.links).FailsOver blame) :
    (withLinks f).FailsOver t blame := failsAs_over.1 (.withLinks (Traced.failsAs_over.2 h))

theorem fetch {channel : Channel} {statement : Sql.Select} {retries : Nat} :
    (Program.fetch channel statement retries).FailsOver t blame :=
  failsAs_over.1 (.fetch QueryError.over_of_isPlain)

end FailsOver

end Program

end CatalogQuery
