import CatalogQuery.Condition.Basic
import CatalogQuery.Sql.Predicate

/-!
# Readings

What remains of a condition or predicate when only the ways in which tests are joined are looked at.
Main statements: putting readings in the places of tests, and the truth of what this gives.
-/

namespace CatalogQuery

/-- Tests that are joined by "and" and "or". -/
inductive Reading (α : Type) where
  | atom (a : α)
  | glued (g : Glue) (parts : List (Reading α))

/-- The truth of what is joined. -/
def Glue.truth : Glue → List Bool → Bool
  | .and, bs => bs.all id
  | .or, bs => bs.any id

theorem Glue.truth_singleton (g : Glue) (b : Bool) : g.truth [b] = b := by
  cases g <;> simp [truth]

namespace Reading

variable {α β γ : Type}

/-- One reading stands by itself. -/
def join (g : Glue) : List (Reading α) → Reading α
  | [f] => f
  | fs => glued g fs

mutual
def truth (ν : α → Bool) : Reading α → Bool
  | atom a => ν a
  | glued g parts => g.truth (truths ν parts)
def truths (ν : α → Bool) : List (Reading α) → List Bool
  | [] => []
  | f :: rest => f.truth ν :: truths ν rest
end

mutual
/-- The reading with other readings in place of its tests. -/
def bind (f : α → Reading β) : Reading α → Reading β
  | atom a => f a
  | glued g parts => glued g (binds f parts)
def binds (f : α → Reading β) : List (Reading α) → List (Reading β)
  | [] => []
  | p :: rest => p.bind f :: binds f rest
end

mutual
/-- The tests from left to right. -/
def atoms : Reading α → List α
  | atom a => [a]
  | glued _ parts => atomsOf parts
def atomsOf : List (Reading α) → List α
  | [] => []
  | f :: rest => f.atoms ++ atomsOf rest
end

theorem truth_join (ν : α → Bool) (g : Glue) (fs : List (Reading α)) :
    (join g fs).truth ν = g.truth (truths ν fs) := by
  match fs with
  | [] => rfl
  | [f] => simp [join, truths, Glue.truth_singleton]
  | f :: f' :: rest => rfl

theorem bind_join (f : α → Reading β) (g : Glue) (fs : List (Reading α)) :
    (join g fs).bind f = join g (binds f fs) := by
  match fs with
  | [] => rfl
  | [_] => rfl
  | _ :: _ :: _ => rfl

mutual
theorem truth_bind (ν : β → Bool) (f : α → Reading β) :
    (p : Reading α) → (p.bind f).truth ν = p.truth fun a => (f a).truth ν
  | atom _ => rfl
  | glued g parts => by rw [bind, truth, truth, truths_binds ν f parts]
theorem truths_binds (ν : β → Bool) (f : α → Reading β) :
    (ps : List (Reading α)) → truths ν (binds f ps) = truths (fun a => (f a).truth ν) ps
  | [] => rfl
  | p :: rest => by rw [binds, truths, truths, truth_bind ν f p, truths_binds ν f rest]
end

mutual
theorem bind_bind (f : α → Reading β) (h : β → Reading γ) :
    (p : Reading α) → (p.bind f).bind h = p.bind fun a => (f a).bind h
  | atom _ => rfl
  | glued g parts => by rw [bind, bind, bind, binds_binds f h parts]
theorem binds_binds (f : α → Reading β) (h : β → Reading γ) :
    (ps : List (Reading α)) → binds h (binds f ps) = binds (fun a => (f a).bind h) ps
  | [] => rfl
  | p :: rest => by rw [binds, binds, binds, bind_bind f h p, binds_binds f h rest]
end

mutual
theorem bind_congr {f h : α → Reading β} :
    (p : Reading α) → (∀ a ∈ p.atoms, f a = h a) → p.bind f = p.bind h
  | atom a, hp => hp a (by simp [atoms])
  | glued g parts, hp => by rw [bind, bind, binds_congr parts hp]
theorem binds_congr {f h : α → Reading β} :
    (ps : List (Reading α)) → (∀ a ∈ atomsOf ps, f a = h a) → binds f ps = binds h ps
  | [], _ => rfl
  | p :: rest, hp => by
    rw [atomsOf, List.forall_mem_append] at hp
    rw [binds, binds, bind_congr p hp.1, binds_congr rest hp.2]
end

end Reading

/-! ## Predicates -/

namespace Sql

mutual
/-- How a predicate is made of tests that are written without parentheses around them. -/
def Predicate.reading : Predicate → Reading Predicate
  | .glued g parts => .glued g (readings parts)
  | p => .atom p
def readings : List Predicate → List (Reading Predicate)
  | [] => []
  | p :: rest => p.reading :: readings rest
end

end Sql

end CatalogQuery
