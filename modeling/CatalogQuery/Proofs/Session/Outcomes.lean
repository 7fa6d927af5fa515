import CatalogQuery.Session.Program
import Mathlib.Data.List.Forall2

/-!
# What comes of results and programs

Statements about all that a traced result or a program can come to, and about the requests that a
program makes on the way. Main statements: the rules by which such a statement about a sequence
follows from those about its parts.
-/

namespace CatalogQuery

/-! ## Lists of results -/

theorem exists_of_forall₂ {α β : Type} {R : α → β → Prop} {as : List α} {bs : List β}
    (h : List.Forall₂ R as bs) {a : α} (ha : a ∈ as) : ∃ b ∈ bs, R a b := by
  induction h with
  | nil => cases ha
  | cons hab _ ih =>
    rcases List.mem_cons.1 ha with rfl | ha
    · exact ⟨_, List.mem_cons_self, hab⟩
    · obtain ⟨b, hb, hr⟩ := ih ha
      exact ⟨b, List.mem_cons_of_mem _ hb, hr⟩

namespace Result

variable {α β : Type} {f : α → Result β} {as : List α}

theorem mapM_ok {bs : List β} :
    as.mapM f = .ok bs ↔ List.Forall₂ (fun a b => f a = .ok b) as bs := by
  induction as generalizing bs with
  | nil =>
    rw [List.forall₂_nil_left_iff, List.mapM_nil]
    exact ⟨fun h => (Except.ok.inj h).symm, fun h => by rw [h]; rfl⟩
  | cons a as ih =>
    rw [List.mapM_cons, List.forall₂_cons_left_iff]
    cases ha : f a with
    | error e => exact ⟨by rintro ⟨⟩, by rintro ⟨_, _, ⟨⟩, _⟩⟩
    | ok b =>
      cases has : as.mapM f with
      | error e =>
        refine ⟨by rintro ⟨⟩, ?_⟩
        rintro ⟨_, _, -, hrest, -⟩
        cases has.symm.trans (ih.2 hrest)
      | ok bs' =>
        constructor
        · rintro ⟨⟩
          exact ⟨b, bs', rfl, ih.1 has, rfl⟩
        · rintro ⟨_, _, hb, hrest, rfl⟩
          cases hb
          cases has.symm.trans (ih.2 hrest)
          rfl

theorem exists_of_mapM_error {e : QueryError} (h : as.mapM f = .error e) :
    ∃ a ∈ as, f a = .error e := by
  induction as with
  | nil => cases h
  | cons a as ih =>
    rw [List.mapM_cons] at h
    cases ha : f a with
    | error e' =>
      rw [ha] at h
      cases h
      exact ⟨a, List.mem_cons_self, ha⟩
    | ok b =>
      cases has : as.mapM f with
      | error e' =>
        rw [ha, has] at h
        cases h
        obtain ⟨a', ha', he⟩ := ih has
        exact ⟨a', List.mem_cons_of_mem _ ha', he⟩
      | ok bs =>
        rw [ha, has] at h
        cases h

end Result

namespace Traced

variable {α β : Type}

instance : LawfulMonad Traced :=
  LawfulMonad.mk' Traced
    (fun t => by
      obtain ⟨events, result⟩ := t
      cases result <;> simp [Functor.map, bind, pure])
    (fun _ _ => rfl)
    bind_assoc

/-- Whether what a traced result comes to, if it is no error, satisfies `post`. -/
def Ensures (t : Traced α) (post : α → Prop) : Prop := ∀ a, t.result = .ok a → post a

theorem result_bind_ok {t : Traced α} {f : α → Traced β} {b : β} :
    (t >>= f).result = .ok b ↔ ∃ a, t.result = .ok a ∧ (f a).result = .ok b := by
  obtain ⟨events, result⟩ := t
  cases result with
  | error e => simp [Bind.bind, bind]
  | ok a => simp [Bind.bind, bind]

theorem result_bind_error {t : Traced α} {f : α → Traced β} {e : QueryError} :
    (t >>= f).result = .error e ↔
      t.result = .error e ∨ ∃ a, t.result = .ok a ∧ (f a).result = .error e := by
  obtain ⟨events, result⟩ := t
  cases result with
  | error e => simp [Bind.bind, bind]
  | ok a => simp [Bind.bind, bind]

theorem result_bind_of_ok {t : Traced α} {a : α} (h : t.result = .ok a) (f : α → Traced β) :
    (t >>= f).result = (f a).result := by
  obtain ⟨events, result⟩ := t
  cases h
  rfl

theorem Ensures.pure {post : α → Prop} {a : α} (h : post a) :
    Ensures (Pure.pure a : Traced α) post := by
  intro b hb
  cases hb
  exact h

theorem Ensures.bind {mid : α → Prop} {post : β → Prop} {t : Traced α} {f : α → Traced β}
    (ht : t.Ensures mid) (hf : ∀ a, mid a → (f a).Ensures post) : (t >>= f).Ensures post := by
  intro b hb
  obtain ⟨a, ha, hb⟩ := result_bind_ok.1 hb
  exact hf a (ht a ha) b hb

theorem Ensures.trivial {t : Traced α} : t.Ensures fun _ => True := fun _ _ => True.intro

theorem Ensures.fail {post : α → Prop} {e : QueryError} : (fail e : Traced α).Ensures post := by
  intro a ha
  cases ha

theorem Ensures.ofResult {post : α → Prop} {r : Result α} (h : ∀ a, r = .ok a → post a) :
    (ofResult r).Ensures post := h

theorem Ensures.mono {mid post : α → Prop} {t : Traced α} (ht : t.Ensures mid)
    (h : ∀ a, mid a → post a) : t.Ensures post := fun a ha => h a (ht a ha)

theorem Ensures.mapM {γ : Type} {post : β → Prop} {f : γ → Traced β} {cs : List γ}
    (h : ∀ c ∈ cs, (f c).Ensures post) : (cs.mapM f).Ensures fun bs => ∀ b ∈ bs, post b := by
  induction cs with
  | nil => exact .pure (by simp)
  | cons c cs ih =>
    rw [List.mapM_cons]
    refine (h c (by simp)).bind fun b hb => ?_
    refine (ih fun d hd => h d (List.mem_cons_of_mem _ hd)).bind fun bs hbs => .pure ?_
    exact List.forall_mem_cons.2 ⟨hb, hbs⟩

end Traced

namespace Program

variable {α β : Type}

instance : LawfulMonad Program := LawfulMonad.mk' Program bind_done (fun _ _ => rfl) bind_assoc

/-- Whether a program makes only requests that are `sound` and comes only to what satisfies `post`,
as long as every answer is one that is `given`. -/
def Meets (given : (r : Request) → r.Answer → Prop) (sound : Request → Prop) (post : α → Prop) :
    Program α → Prop
  | done a => post a
  | failed _ => True
  | ask r next => sound r ∧ ∀ answer, given r answer → (next answer).Meets given sound post

variable {given : (r : Request) → r.Answer → Prop} {sound : Request → Prop}

theorem Meets.bind {mid : α → Prop} {post : β → Prop} {p : Program α} {f : α → Program β}
    (hp : p.Meets given sound mid) (hf : ∀ a, mid a → (f a).Meets given sound post) :
    (p >>= f).Meets given sound post := by
  induction p with
  | done a => exact hf a hp
  | failed e => trivial
  | ask r next ih => exact ⟨hp.1, fun answer ha => ih answer (hp.2 answer ha)⟩

theorem Meets.mono {mid post : α → Prop} {p : Program α} (hp : p.Meets given sound mid)
    (h : ∀ a, mid a → post a) : p.Meets given sound post := by
  induction p with
  | done a => exact h a hp
  | failed e => trivial
  | ask r next ih => exact ⟨hp.1, fun answer ha => ih answer (hp.2 answer ha)⟩

theorem Meets.weaken {sound' : Request → Prop} {post : α → Prop} {p : Program α}
    (hp : p.Meets given sound post) (h : ∀ r, sound r → sound' r) : p.Meets given sound' post := by
  induction p with
  | done a => exact hp
  | failed e => trivial
  | ask r next ih => exact ⟨h r hp.1, fun answer ha => ih answer (hp.2 answer ha)⟩

theorem Meets.ofResult {post : α → Prop} {r : Result α} (h : ∀ a, r = .ok a → post a) :
    (ofResult r).Meets given sound post := by
  cases r with
  | error e => trivial
  | ok a => exact h a rfl

/-! ## Whatever is answered -/

/-- Whether all that a program can come to satisfies `post`, whatever its requests are answered. -/
def Yields (p : Program α) (post : α → Prop) : Prop :=
  p.Meets (fun _ _ => True) (fun _ => True) post

theorem Yields.any {p : Program α} : p.Yields fun _ => True := by
  induction p with
  | done a => trivial
  | failed e => trivial
  | ask r next ih => exact ⟨trivial, fun answer _ => ih answer⟩

theorem Yields.pure {post : α → Prop} {a : α} (h : post a) :
    (Pure.pure a : Program α).Yields post := h

theorem Yields.bind {mid : α → Prop} {post : β → Prop} {p : Program α} {f : α → Program β}
    (hp : p.Yields mid) (hf : ∀ a, mid a → (f a).Yields post) : (p >>= f).Yields post :=
  Meets.bind hp hf

/-- What comes first may come to anything. -/
theorem Yields.next {post : β → Prop} {p : Program α} {f : α → Program β}
    (hf : ∀ a, (f a).Yields post) : (p >>= f).Yields post := Yields.any.bind fun a _ => hf a

/-- Nothing follows on a program that comes to nothing. -/
theorem Yields.bind_never {post : β → Prop} {p : Program α} {f : α → Program β}
    (hp : p.Yields fun _ => False) : (p >>= f).Yields post := hp.bind fun _ h => h.elim

theorem Yields.mono {mid post : α → Prop} {p : Program α} (hp : p.Yields mid)
    (h : ∀ a, mid a → post a) : p.Yields post := Meets.mono hp h

theorem Yields.ofResult {post : α → Prop} {r : Result α} (h : ∀ a, r = .ok a → post a) :
    (ofResult r).Yields post := Meets.ofResult h

theorem Yields.withLinks {post : α → Prop} {f : Links → Traced α}
    (h : ∀ links, (f links).Ensures post) : (withLinks f).Yields post :=
  ⟨trivial, fun links _ => Yields.next fun _ => Yields.ofResult (h links)⟩

theorem Yields.mapM {post : β → Prop} {f : α → Program β} {as : List α}
    (h : ∀ a ∈ as, (f a).Yields post) :
    (as.mapM f).Yields fun bs => bs.length = as.length ∧ ∀ b ∈ bs, post b := by
  induction as with
  | nil => exact .pure (by simp)
  | cons a as ih =>
    rw [List.mapM_cons]
    refine (h a (by simp)).bind fun b hb => ?_
    refine (ih fun c hc => h c (List.mem_cons_of_mem _ hc)).bind fun bs hbs => .pure ⟨?_, ?_⟩
    · simp [hbs.1]
    · exact List.forall_mem_cons.2 ⟨hb, hbs.2⟩

/-- What follows matters only for what a program can come to. -/
theorem Yields.bind_congr {post : α → Prop} {p : Program α} (hp : p.Yields post)
    {f g : α → Program β} (h : ∀ a, post a → f a = g a) : p >>= f = p >>= g := by
  induction p with
  | done a => exact h a hp
  | failed e => rfl
  | ask r next ih =>
    have hnext : (fun answer => Program.bind (next answer) f) =
        fun answer => Program.bind (next answer) g :=
      funext fun answer => ih answer (hp.2 answer trivial)
    exact congrArg (ask r) hnext

/-- Whether a program comes to a value when its requests are answered in some way. -/
def MayGive : Program α → α → Prop
  | done b, a => b = a
  | failed _, _ => False
  | ask _ next, a => ∃ answer, (next answer).MayGive a

theorem Yields.mayGive (p : Program α) : p.Yields p.MayGive := by
  induction p with
  | done a => exact rfl
  | failed e => trivial
  | ask r next ih =>
    exact ⟨trivial, fun answer _ => (ih answer).mono fun a ha => ⟨answer, ha⟩⟩

theorem Yields.forall₂ {post : α → β → Prop} {f : α → Program β} {as : List α}
    (h : ∀ a ∈ as, (f a).Yields (post a)) : (as.mapM f).Yields (List.Forall₂ post as) := by
  induction as with
  | nil => exact .pure .nil
  | cons a as ih =>
    rw [List.mapM_cons]
    refine (h a (by simp)).bind fun b hb => ?_
    refine (ih fun c hc => h c (List.mem_cons_of_mem _ hc)).bind fun bs hbs => .pure ?_
    exact .cons hb hbs

end Program

end CatalogQuery
