import CatalogQuery.Link.Basic

/-!
# Results with what led to them

Compiling a condition consults the links of objects and may find fault with the metadata. Both are
noted in order beside the result, also when the result is an error, so that compiling itself stays
a function.
-/

namespace CatalogQuery

inductive Event where
  /-- The links of an object were asked for. -/
  | consulted (entity : String)
  | noticed (n : Notice)
deriving DecidableEq, Repr

structure Traced (α : Type) where
  events : List Event
  result : Result α

namespace Traced

def pure {α : Type} (a : α) : Traced α := ⟨[], .ok a⟩

def bind {α β : Type} (t : Traced α) (f : α → Traced β) : Traced β :=
  match t.result with
  | .error e => ⟨t.events, .error e⟩
  | .ok a => ⟨t.events ++ (f a).events, (f a).result⟩

instance : Monad Traced where
  pure := pure
  bind := bind

def ofResult {α : Type} (r : Result α) : Traced α := ⟨[], r⟩

def fail {α : Type} (e : QueryError) : Traced α := ⟨[], .error e⟩

def notice (n : Notice) : Traced Unit := ⟨[.noticed n], .ok ()⟩

/-- Asks for the links of an object. -/
def consult (links : Links) (entity : String) : Traced LinkMap := ⟨[.consulted entity], links entity⟩

theorem bind_ok {α β : Type} (events : List Event) (a : α) (f : α → Traced β) :
    bind ⟨events, .ok a⟩ f = ⟨events ++ (f a).events, (f a).result⟩ := rfl

theorem bind_error {α β : Type} (events : List Event) (e : QueryError) (f : α → Traced β) :
    bind ⟨events, .error e⟩ f = ⟨events, .error e⟩ := rfl

theorem bind_assoc {α β γ : Type} (t : Traced α) (f : α → Traced β) (g : β → Traced γ) :
    bind (bind t f) g = bind t fun a => bind (f a) g := by
  obtain ⟨events, result⟩ := t
  cases result with
  | error e => rfl
  | ok a =>
    simp only [bind]
    cases (f a).result <;> simp [List.append_assoc]

end Traced

end CatalogQuery
