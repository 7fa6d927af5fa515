import CatalogQuery.Proofs.Compile.Composed
import CatalogQuery.Reduce.Scopes

/-!
# Programs that send what is composed

Main statements: the rules by which a program of several parts sends composed statements only, and
that the reads of users, roles and scopes are of this kind.
-/

namespace CatalogQuery

/-- Whether an answer is a catalog without calculated fields or no catalog at all. -/
def Request.Uncalculated : (r : Request) → r.Answer → Prop
  | .catalog, c => Catalog.Uncalculated c
  | _, _ => True

/-- Whether the statement of a request, if it has one, is made of composed parts. -/
def Request.Composed : Request → Prop
  | .fetch _ s => s.Composed
  | .execute _ w => w.Composed
  | _ => True

namespace Program

/-- Whether all that a program sends is composed and what it comes to satisfies `post`. -/
def Composed {α : Type} (p : Program α) (post : α → Prop) : Prop :=
  p.Meets Request.Uncalculated Request.Composed post

namespace Composed

variable {α β : Type} {mid post : α → Prop}

theorem pure {a : α} (h : post a) : (Pure.pure a : Program α).Composed post := h

theorem bind {post : β → Prop} {p : Program α} {f : α → Program β} (hp : p.Composed mid)
    (hf : ∀ a, mid a → (f a).Composed post) : (p >>= f).Composed post := Meets.bind hp hf

/-- What comes first may come to anything. -/
theorem next {post : β → Prop} {p : Program α} {f : α → Program β} (hp : p.Composed fun _ => True)
    (hf : ∀ a, (f a).Composed post) : (p >>= f).Composed post := Meets.bind hp fun a _ => hf a

theorem map {p : Program α} {f : α → β} (hp : p.Composed fun _ => True) :
    (f <$> p).Composed fun _ => True := by
  rw [map_eq_pure_bind]
  exact hp.next fun _ => trivial

theorem catalog : Program.catalog.Composed Catalog.Uncalculated := ⟨trivial, fun _ hc => hc⟩

theorem anyCatalog : Program.catalog.Composed fun _ => True := ⟨trivial, fun _ _ => trivial⟩

theorem notice (n : Notice) : (Program.notice n).Composed fun _ => True :=
  ⟨trivial, fun _ _ => trivial⟩

theorem lock (entity key : String) : (Program.lock entity key).Composed fun _ => True :=
  ⟨trivial, fun _ _ => trivial⟩

theorem newKey : Program.newKey.Composed fun _ => True := ⟨trivial, fun _ _ => trivial⟩

theorem ofResult {r : Result α} (h : ∀ a, r = .ok a → post a) :
    (Program.ofResult r).Composed post := Meets.ofResult h

theorem anyResult {r : Result α} : (Program.ofResult r).Composed fun _ => True :=
  ofResult fun _ _ => trivial

theorem replay (events : List Event) : (Program.replay events).Composed fun _ => True := by
  induction events with
  | nil => trivial
  | cons event rest ih =>
    cases event with
    | consulted entity => exact ⟨trivial, fun _ _ => ih⟩
    | noticed n => exact ⟨trivial, fun _ _ => ih⟩

theorem withLinks {f : Links → Traced α} (h : ∀ links, (f links).Ensures post) :
    (Program.withLinks f).Composed post :=
  ⟨trivial, fun links _ => Meets.bind (replay _) fun _ _ => Meets.ofResult (h links)⟩

theorem linksOf (entity : String) : (Program.linksOf entity).Composed fun _ => True :=
  withLinks fun _ => .trivial

theorem fetch (channel : Channel) {statement : Sql.Select} (h : statement.Composed)
    (retries : Nat) : (Program.fetch channel statement retries).Composed fun _ => True := by
  -- A read that is sent again is the same statement.
  induction retries with
  | zero =>
    refine ⟨h, fun answer _ => ?_⟩
    cases answer <;> trivial
  | succ retries ih =>
    refine ⟨h, fun answer _ => ?_⟩
    cases answer with
    | ok rows => trivial
    | error failure =>
      dsimp only
      split
      · exact ih
      · trivial

theorem execute (channel : Channel) {statement : Sql.Write} (h : statement.Composed) :
    (Program.execute channel statement).Composed fun _ => True := by
  refine ⟨h, fun answer _ => ?_⟩
  cases answer <;> trivial

theorem mapM {f : α → Program β} (h : ∀ a, (f a).Composed fun _ => True) (as : List α) :
    (as.mapM f).Composed fun _ => True := by
  induction as with
  | nil => trivial
  | cons a as ih =>
    rw [List.mapM_cons]
    exact (h a).next fun _ => ih.next fun _ => trivial

end Composed

end Program

open Program (Composed)
open Sql

/-! ## Reading users, roles and scopes -/

namespace Directory

/-- A column that holds one of several texts. -/
theorem composed_oneOf_texts {α : Type} {e : Expr} (he : e.Composed) (f : α → String)
    (as : List α) : FilterComposed (some (.oneOf e (as.map fun a => .text (f a)) false)) := by
  refine ⟨he, fun o ho => ?_⟩
  obtain ⟨a, -, rfl⟩ := List.mem_map.1 ho
  trivial

theorem composed_userSelect (d : Directory) (username : String) :
    (d.userSelect username).Composed where
  columns := by simp [userSelect, Selected.Composed, Expr.Composed]
  filter := by
    show Predicate.Composed _
    exact ⟨trivial, trivial⟩
  order := by simp [userSelect]

theorem composed_rolesSelect (d : Directory) (username : String) :
    (d.rolesSelect username).Composed := by
  refine Select.composed_plain ?_ ?_
  · simp [Selected.Composed, Expr.Composed]
  · show Predicate.Composed _
    exact ⟨trivial, trivial⟩

theorem composed_scopesSelect (d : Directory) (roles : List Role) :
    (d.scopesSelect roles).Composed := by
  refine Select.composed_plain ?_ (composed_oneOf_texts (e := .column _) trivial Role.id roles)
  simp [Selected.Composed, Expr.Composed]

theorem composed_namesSelect (d : Directory) (usernames : List String) :
    (d.namesSelect usernames).Composed := by
  refine Select.composed_plain ?_ (composed_oneOf_texts (e := .bare _) trivial id usernames)
  simp [Selected.Composed, Expr.Composed]

theorem composed_user (d : Directory) (channel : Channel) (username : String) :
    Composed (d.user channel username) fun _ => True :=
  (Composed.fetch channel (d.composed_userSelect username) _).next fun _ => trivial

theorem composed_roles (d : Directory) (channel : Channel) (username : String) :
    Composed (d.roles channel username) fun _ => True :=
  (Composed.fetch channel (d.composed_rolesSelect username) _).next fun _ => trivial

theorem composed_scopes (d : Directory) (channel : Channel) (roles : List Role) :
    Composed (d.scopes channel roles) fun _ => True := by
  rw [scopes]
  split
  · trivial
  · exact (Composed.fetch channel (d.composed_scopesSelect roles) _).next fun _ =>
      Composed.anyResult.next fun _ => trivial

theorem composed_displayNames (d : Directory) (channel : Channel) (usernames : List String) :
    Composed (d.displayNames channel usernames) fun _ => True := by
  rw [displayNames]
  split
  · trivial
  · exact (Composed.fetch channel (d.composed_namesSelect usernames) _).next fun _ => trivial

theorem composed_scopesOf (d : Directory) (channel : Channel) (username : String) :
    Composed (d.scopesOf channel username) fun _ => True := by
  refine (composed_user d channel username).next fun found => ?_
  cases found with
  | none => trivial
  | some u =>
    dsimp only
    split
    · trivial
    · exact (composed_roles d channel username).next (composed_scopes d channel)

end Directory

theorem Session.composed_sight (s : Session) (caller : Caller) :
    Composed (s.sight caller) fun _ => True := by
  rw [sight]
  split
  · trivial
  split
  · trivial
  · exact (s.directory.composed_scopesOf s.channel _).map

theorem Session.composed_fetch (s : Session) {statement : Sql.Select} (h : statement.Composed) :
    Composed (s.fetch statement) fun _ => True := .fetch s.channel h _

theorem Session.composed_execute (s : Session) {statement : Sql.Write} (h : statement.Composed) :
    Composed (s.execute statement) fun _ => True := .execute s.channel h

end CatalogQuery
