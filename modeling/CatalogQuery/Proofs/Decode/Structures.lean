import CatalogQuery.Decode

/-!
# Reading structures

A reader takes the members of a structure one after another, by their names or in their order. What
each of the readers of a single member does is said once for both forms, so that a structure is
followed member by member whichever form it has. What holds of everything that a reader returns is
shown along the reader in the same way.
-/

namespace CatalogQuery

namespace Json

theorem find_append (key : String) (a b : Members) :
    find key (a ++ b) = (find key a).or (find key b) := by
  induction a with
  | nil => simp [find]
  | cons m rest ih =>
    obtain ⟨k, v⟩ := m
    by_cases hk : k = key <;> simp [find, hk, ih]

/-- Of several members with one key the last one stays. -/
theorem find_sorted (key : String) (members : Members) :
    find key (sorted members) = find key members.reverse := by
  have hfold (found : Members) :
      find key (members.foldl (fun ms m => insert m.1 m.2 ms) found) =
        (find key members.reverse).or (find key found) := by
    induction members generalizing found with
    | nil => rfl
    | cons m rest ih =>
      obtain ⟨k, v⟩ := m
      rw [List.foldl_cons, ih, List.reverse_cons, find_append, Option.or_assoc]
      by_cases hk : k = key
      · subst hk
        simp [find_insert_self, find]
      · simp [find_insert_of_ne (Ne.symm hk), find, hk]
  simpa [sorted, find] using hfold []

@[simp]
theorem find_optional (key other : String) (v : Option Json) :
    find key (optional other v) = if other = key then v else none := by
  cases v <;> simp [optional, find]

@[simp]
theorem reverse_optional (key : String) (v : Option Json) :
    (optional key v).reverse = optional key v := by
  cases v <;> rfl

theorem find_eq_none {key : String} {members : Members} (h : key ∉ members.map Prod.fst) :
    find key members = none := by
  induction members with
  | nil => rfl
  | cons m rest ih =>
    obtain ⟨k, v⟩ := m
    rw [List.map_cons, List.mem_cons, not_or] at h
    rw [find, if_neg (Ne.symm h.1), ih h.2]

/-- When no key is given twice, the order of the members does not matter. -/
theorem find_reverse {key : String} {members : Members} (h : (members.map Prod.fst).Nodup) :
    find key members.reverse = find key members := by
  induction members with
  | nil => rfl
  | cons m rest ih =>
    obtain ⟨k, v⟩ := m
    rw [List.map_cons, List.nodup_cons] at h
    rw [List.reverse_cons, find_append, ih h.2]
    by_cases hk : k = key
    · subst hk
      simp [find, find_eq_none h.1]
    · simp [find, hk]

/-- Members chosen by their keys. -/
theorem find_filter (key : String) (p : String → Bool) (members : Members) :
    find key (members.filter fun m => p m.1) = if p key then find key members else none := by
  induction members with
  | nil => simp [find]
  | cons m rest ih =>
    obtain ⟨k, v⟩ := m
    by_cases hk : k = key
    · subst hk
      by_cases hp : p k <;> simp [find, hp, ih]
    · by_cases hp : p k <;> simp [find, hp, hk, ih]

theorem find_erase (key other : String) (members : Members) :
    find key (erase other members) = if key = other then none else find key members := by
  have h := find_filter key (fun k => decide (k ≠ other)) members
  simpa [erase] using h

theorem sizeOf_find_lt {key : String} {members : Members} {v : Json}
    (h : find key members = some v) : sizeOf v < sizeOf members := by
  induction members with
  | nil => cases h
  | cons m rest ih =>
    obtain ⟨k, w⟩ := m
    rw [find] at h
    split at h
    · cases h
      simp only [List.cons.sizeOf_spec, Prod.mk.sizeOf_spec]
      omega
    · have hlt := ih h
      simp only [List.cons.sizeOf_spec]
      omega

/-- A word, or an object with the word as its only key and no value. -/
def Spells (v : Json) (s : String) : Prop := v = .str s ∨ v = .obj [(s, .null)]

end Json

namespace MemberSource

/-- The value that a source has for the member with the given name. -/
def member (name : String) : MemberSource → Option Json
  | named members => Json.find name members
  | ordered items => items.head?

/-- What is left of a source when one member has been read. -/
def rest : MemberSource → MemberSource
  | named members => named members
  | ordered items => ordered items.tail

/-- Whether nothing that has to be read is left. -/
def isDone : MemberSource → Bool
  | named _ => true
  | ordered items => items.isEmpty

@[simp]
theorem member_named (name : String) (members : Json.Members) :
    (named members).member name = Json.find name members := rfl

@[simp]
theorem member_ordered (name : String) (items : List Json) :
    (ordered items).member name = items.head? := rfl

@[simp]
theorem rest_named (members : Json.Members) : (named members).rest = named members := rfl

@[simp]
theorem rest_ordered (items : List Json) : (ordered items).rest = ordered items.tail := rfl

@[simp]
theorem isDone_named (members : Json.Members) : (named members).isDone = true := rfl

@[simp]
theorem isDone_ordered (items : List Json) : (ordered items).isDone = items.isEmpty := rfl

/-- The values that a source has for the members with the given names, when it has no others that
have to be read. -/
def slots : List String → MemberSource → Option (List (Option Json))
  | [], source => if source.isDone then some [] else none
  | name :: names, source => (slots names source.rest).map (source.member name :: ·)

end MemberSource

/-- The members of a structure in either form. -/
def Json.slots (names : List String) : Json → Option (List (Option Json))
  | .obj members => MemberSource.slots names (.named members)
  | .arr items => MemberSource.slots names (.ordered items)
  | _ => none

namespace Decode

variable {α : Type}

theorem word_eq_some_iff {names : String → Option α} {v : Json} {a : α} :
    word names Json.isNull v = some a ↔ ∃ s, v.Spells s ∧ names s = some a := by
  unfold Json.Spells
  constructor
  · intro h
    unfold word at h
    split at h
    · next s => exact ⟨s, .inl rfl, h⟩
    · next s v =>
      split at h
      · next hv =>
        cases v <;> simp [Json.isNull] at hv
        exact ⟨s, .inr rfl, h⟩
      · cases h
    · cases h
  · rintro ⟨s, rfl | rfl, hs⟩
    · exact hs
    · exact hs

@[simp]
theorem word_str (names : String → Option α) (payload : Json → Bool) (s : String) :
    word names payload (.str s) = names s := rfl

@[simp]
theorem string_str (s : String) : string (.str s) = some s := rfl

@[simp]
theorem bool_bool (b : Bool) : bool (.bool b) = some b := rfl

theorem string_eq_some_iff {v : Json} {s : String} :
    string v = some s ↔ v = .str s := by
  cases v <;> simp [string, Json.text?]

/-- A value that may be missing or null. -/
def optionally (decode : Json → Option α) : Option Json → Option (Option α)
  | none => some none
  | some .null => some none
  | some v => (decode v).map some

theorem optionally_some {v : Json} (hv : v ≠ .null) (decode : Json → Option α) :
    optionally decode (some v) = (decode v).map some := by
  cases v <;> first | rfl | contradiction

/-- A value that may be missing is read back unless it is written as null. -/
theorem optionally_map {decode : Json → Option α} {write : α → Json} {a : Option α}
    (h : ∀ b ∈ a, write b ≠ .null ∧ decode (write b) = some b) :
    optionally decode (a.map write) = some a := by
  cases a with
  | none => rfl
  | some b =>
    obtain ⟨hnull, hread⟩ := h b rfl
    simp [optionally_some hnull, hread]

@[simp]
theorem optionally_text (s : Option String) : optionally string (s.map .str) = some s :=
  optionally_map fun _ _ => ⟨by simp, rfl⟩

theorem optionally_string_eq_some_iff {v : Option Json} {s : Option String} :
    optionally string v = some s ↔ v = s.map .str ∨ v = some .null ∧ s = none := by
  cases v with
  | none => cases s <;> simp [optionally]
  | some v => cases v <;> cases s <;> simp [optionally, string, Json.text?]

@[simp]
theorem run_next (name : String) (source : MemberSource) :
    (next [name]).run source = some (source.member name, source.rest) := by
  cases source with
  | named members =>
    cases h : Json.find name members <;>
      simp [next, StateT.run, h]
  | ordered items => cases items <;> rfl

@[simp]
theorem run_required (name : String) (decode : Json → Option α) (source : MemberSource) :
    (required name decode).run source =
      ((source.member name).bind decode).map (·, source.rest) := by
  rw [required, StateT.run_bind, run_next]
  cases h : (source.member name).bind decode <;> simp [h]

@[simp]
theorem run_defaulted (name : String) (default : α) (decode : Json → Option α)
    (source : MemberSource) :
    (defaulted [name] default decode).run source =
      ((source.member name).elim (some default) decode).map (·, source.rest) := by
  rw [defaulted, StateT.run_bind, run_next]
  cases source.member name with
  | none => rfl
  | some v => cases h : decode v <;> simp [h]

@[simp]
theorem run_optional (name : String) (decode : Json → Option α) (source : MemberSource) :
    (optional name decode).run source =
      (optionally decode (source.member name)).map (·, source.rest) := by
  rw [optional, StateT.run_bind, run_next]
  cases source.member name with
  | none => rfl
  | some v =>
    cases v with
    | null => rfl
    | _ =>
      simp only [optionally]
      cases h : decode _ <;> simp [h]

theorem fromSource_eq_some_iff {reader : MemberReader α} {source : MemberSource}
    {a : α} :
    fromSource reader source = some a ↔
      ∃ rest, reader.run source = some (a, rest) ∧ rest.isDone := by
  unfold fromSource
  constructor
  · intro h
    split at h
    · next hrun => cases h; exact ⟨_, hrun, rfl⟩
    · next hrun => cases h; exact ⟨_, hrun, rfl⟩
    · cases h
  · rintro ⟨rest, hrun, hdone⟩
    rw [hrun]
    match rest, hdone with
    | .named members, _ => rfl
    | .ordered [], _ => rfl

theorem fromSource_map {β : Type} (f : α → β) (reader : MemberReader α) (source : MemberSource) :
    fromSource (f <$> reader) source = (fromSource reader source).map f := by
  unfold fromSource
  rw [StateT.run_map]
  match reader.run source with
  | none => rfl
  | some (_, .named _) => rfl
  | some (_, .ordered []) => rfl
  | some (_, .ordered (_ :: _)) => rfl

/-- A list is read back when its items are. -/
theorem list_map {item : Json → Option α} {write : α → Json} {as : List α}
    (h : ∀ a ∈ as, item (write a) = some a) : list item (.arr (as.map write)) = some as := by
  induction as with
  | nil => rfl
  | cons a rest ih =>
    have hrest := ih fun b hb => h b (List.mem_cons_of_mem a hb)
    simp only [list] at hrest
    simp [list, h a List.mem_cons_self, hrest]

@[simp]
theorem list_strings (items : List String) : list string (Json.strings items) = some items :=
  list_map fun _ _ => rfl

theorem exists_of_mem_list {item : Json → Option α} {v : Json} {as : List α}
    (h : list item v = some as) : ∀ a ∈ as, ∃ v, item v = some a := by
  cases v with
  | arr items =>
    simp only [list] at h
    induction items generalizing as with
    | nil => simp_all
    | cons v rest ih =>
      simp only [List.mapM_cons, Option.bind_eq_bind, Option.bind_eq_some_iff, Option.pure_def] at h
      obtain ⟨a, ha, bs, hbs, heq⟩ := h
      cases heq
      intro b hb
      rcases List.mem_cons.mp hb with rfl | hb
      · exact ⟨v, ha⟩
      · exact ih hbs b hb
  | _ => cases h

end Decode

/-- Every value that the reader returns satisfies `P`. -/
def MemberReader.Yields {α : Type} (P : α → Prop) (r : MemberReader α) : Prop :=
  ∀ source a rest, r.run source = some (a, rest) → P a

namespace MemberReader

open Decode

variable {α β : Type} {P : α → Prop} {Q : β → Prop}

theorem yields_true (r : MemberReader α) : r.Yields fun _ => True := fun _ _ _ _ => trivial

theorem yields_pure {a : α} (h : P a) : (pure a : MemberReader α).Yields P := by
  intro source b rest hb
  cases hb
  exact h

theorem Yields.bind {r : MemberReader α} {f : α → MemberReader β} (hr : r.Yields P)
    (hf : ∀ a, P a → (f a).Yields Q) : (r >>= f).Yields Q := by
  intro source b rest hb
  simp only [StateT.run_bind, Option.bind_eq_bind, Option.bind_eq_some_iff] at hb
  obtain ⟨⟨a, mid⟩, ha, hb⟩ := hb
  exact hf a (hr source a mid ha) mid b rest hb

/-- A member of which nothing has to be known. -/
theorem Yields.next {r : MemberReader α} {f : α → MemberReader β} (hf : ∀ a, (f a).Yields Q) :
    (r >>= f).Yields Q :=
  (yields_true r).bind fun a _ => hf a

theorem Yields.map {r : MemberReader α} {f : α → β} (hr : r.Yields fun a => Q (f a)) :
    (f <$> r).Yields Q := by
  intro source b rest hb
  simp only [StateT.run_map, Option.map_eq_map, Option.map_eq_some_iff] at hb
  obtain ⟨⟨a, mid⟩, ha, heq⟩ := hb
  cases heq
  exact hr source a mid ha

theorem yields_required {name : String} {decode : Json → Option α}
    (h : ∀ v a, decode v = some a → P a) : (required name decode).Yields P := by
  intro source a rest ha
  simp only [run_required, Option.map_eq_some_iff, Option.bind_eq_some_iff] at ha
  obtain ⟨b, ⟨v, -, hv⟩, heq⟩ := ha
  cases heq
  exact h v _ hv

theorem yields_defaulted {name : String} {default : α} {decode : Json → Option α}
    (hdefault : P default) (h : ∀ v a, decode v = some a → P a) :
    (defaulted [name] default decode).Yields P := by
  intro source a rest ha
  simp only [run_defaulted, Option.map_eq_some_iff] at ha
  obtain ⟨b, hb, heq⟩ := ha
  cases heq
  cases hm : source.member name with
  | none =>
    rw [hm] at hb
    cases hb
    exact hdefault
  | some v =>
    rw [hm] at hb
    exact h v _ hb

theorem yields_optional {name : String} {decode : Json → Option α}
    (h : ∀ v a, v ≠ .null → decode v = some a → P a) :
    (optional name decode).Yields fun o => ∀ a ∈ o, P a := by
  intro source o rest ho a ha
  simp only [run_optional, Option.map_eq_some_iff] at ho
  obtain ⟨b, hb, heq⟩ := ho
  cases heq
  rcases hm : source.member name with _ | v
  · rw [hm] at hb
    cases hb
    cases ha
  · rw [hm] at hb
    by_cases hv : v = .null
    · subst hv
      cases hb
      cases ha
    · rw [optionally_some hv, Option.map_eq_some_iff] at hb
      obtain ⟨b, hb, rfl⟩ := hb
      cases ha
      exact h v _ hv hb

theorem Yields.fromSource {r : MemberReader α} (hr : r.Yields P) {source : MemberSource} {a : α}
    (h : fromSource r source = some a) : P a := by
  unfold Decode.fromSource at h
  split at h
  · next ha => cases h; exact hr _ _ _ ha
  · next ha => cases h; exact hr _ _ _ ha
  · cases h

theorem Yields.structured {r : MemberReader α} (hr : r.Yields P) {v : Json} {a : α}
    (h : structured r v = some a) : P a := by
  cases v with
  | obj members => exact hr.fromSource h
  | arr items => exact hr.fromSource h
  | _ => cases h

end MemberReader

end CatalogQuery
