import CatalogQuery.Sql.Quote

/-!
# How the database reads characters

The database takes a statement apart into names between backticks, texts between quotes and single
characters. Main statements: a quoted name and a quoted text are read back as one token with what
was quoted in it, whatever follows them except one more mark of their own kind, so that nothing else
is quoted alike.
-/

namespace CatalogQuery.Sql

inductive Token where
  /-- A name between backticks. -/
  | name (s : List Char)
  /-- A text between quotes. -/
  | text (s : List Char)
  /-- A character outside of all marks. -/
  | plain (c : Char)
deriving DecidableEq, Repr

/-- Where reading stands. -/
inductive Mode where
  | normal
  /-- Behind an opening mark, with what was read since. -/
  | quoted (mark : Char) (read : List Char)
  /-- Behind the start of a comment, whose end is not looked for. -/
  | comment
deriving DecidableEq, Repr

/-- Backticks enclose names, quotes of either kind texts. -/
def isMark (c : Char) : Bool := c == '`' || c == '\'' || c == '"'

def Token.quoted (mark : Char) (s : List Char) : Token := if mark = '`' then .name s else .text s

/-- What a backslash and a character stand for in a text. -/
def escaped : Char → List Char
  | '0' => [Char.ofNat 0]
  | 'b' => [Char.ofNat 8]
  | 'n' => ['\n']
  | 'r' => ['\r']
  | 't' => ['\t']
  | 'Z' => [Char.ofNat 26]
  -- Before the wildcards of patterns the backslash stays.
  | '%' => ['\\', '%']
  | '_' => ['\\', '_']
  | c => [c]

def opensComment : List Char → Bool
  | '#' :: _ => true
  | '-' :: '-' :: _ => true
  | '/' :: '*' :: _ => true
  | _ => false

def emit (t : Token) (p : List Token × Mode) : List Token × Mode := (t :: p.1, p.2)

/-- The tokens of a text, and where reading stands at its end. -/
def scan : Mode → List Char → List Token × Mode
  | m, [] => ([], m)
  | .normal, c :: rest =>
    if opensComment (c :: rest) then scan .comment rest
    else if isMark c then scan (.quoted c []) rest
    else emit (.plain c) (scan .normal rest)
  | .quoted mark s, [c] =>
    if c = mark then ([.quoted mark s], .normal) else ([], .quoted mark (s ++ [c]))
  | .quoted mark s, c :: d :: rest =>
    -- In names a backslash is a character like any other.
    if c = '\\' ∧ mark ≠ '`' then scan (.quoted mark (s ++ escaped d)) rest
    else if c ≠ mark then scan (.quoted mark (s ++ [c])) (d :: rest)
    else if d = mark then scan (.quoted mark (s ++ [mark])) rest
    else emit (.quoted mark s) (scan .normal (d :: rest))
  | .comment, _ :: rest => scan .comment rest

/-- Puts tokens in front of what was read later. -/
def emitAll (ts : List Token) (p : List Token × Mode) : List Token × Mode := (ts ++ p.1, p.2)

@[simp]
theorem emitAll_nil (p : List Token × Mode) : emitAll [] p = p := rfl

theorem emit_emitAll (t : Token) (ts : List Token) (p : List Token × Mode) :
    emit t (emitAll ts p) = emitAll (t :: ts) p := rfl

theorem emitAll_emitAll (ts us : List Token) (p : List Token × Mode) :
    emitAll ts (emitAll us p) = emitAll (ts ++ us) p := by
  simp [emitAll]

/-! ## Characters outside of marks -/

/-- Whether a character is read by itself whatever follows it. -/
def isSingle (c : Char) : Bool := !isMark c && c != '#' && c != '-' && c != '/'

theorem opensComment_single {c : Char} (h : isSingle c = true) (rest : List Char) :
    opensComment (c :: rest) = false := by
  simp only [isSingle, Bool.and_eq_true, bne_iff_ne] at h
  unfold opensComment
  split <;> simp_all

theorem scan_single {c : Char} (h : isSingle c = true) (rest : List Char) :
    scan .normal (c :: rest) = emit (.plain c) (scan .normal rest) := by
  have hm : isMark c = false := by
    simp only [isSingle, Bool.and_eq_true, Bool.not_eq_true'] at h
    exact h.1.1.1
  simp [scan, opensComment_single h, hm]

/-- A minus is read by itself unless another one follows. -/
theorem scan_minus {d : Char} (h : d ≠ '-') (rest : List Char) :
    scan .normal ('-' :: d :: rest) = emit (.plain '-') (scan .normal (d :: rest)) := by
  have hc : opensComment ('-' :: d :: rest) = false := by
    unfold opensComment
    split <;> simp_all
  have hm : isMark '-' = false := rfl
  rw [scan, hc, hm]
  simp

theorem scan_singles {s : List Char} (h : s.all isSingle = true) (rest : List Char) :
    scan .normal (s ++ rest) = emitAll (s.map .plain) (scan .normal rest) := by
  induction s with
  | nil => rfl
  | cons c s ih =>
    simp only [List.all_cons, Bool.and_eq_true] at h
    rw [List.cons_append, scan_single h.1, ih h.2, emit_emitAll, List.map_cons]

/-! ## Inside of marks -/

/-- Puts characters in front of what was read later. -/
def behind (s : List Char) (p : List Char × List Char) : List Char × List Char := (s ++ p.1, p.2)

/-- What stands between an opening mark and its closing one, as the database takes it, and what
follows; none if the mark is never closed. -/
def unquote (mark : Char) : List Char → Option (List Char × List Char)
  | [] => none
  | [c] => if c = mark then some ([], []) else none
  | c :: d :: rest =>
    if c = '\\' ∧ mark ≠ '`' then (unquote mark rest).map (behind (escaped d))
    else if c ≠ mark then (unquote mark (d :: rest)).map (behind [c])
    else if d = mark then (unquote mark rest).map (behind [mark])
    else some ([], d :: rest)

/-- The name or text that begins at an opening mark, and what follows it. -/
def readQuoted : List Char → Option (Token × List Char)
  | [] => none
  | c :: rest =>
    if isMark c then (unquote c rest).map fun p => (.quoted c p.1, p.2) else none

theorem scan_quoted_cons (mark : Char) (s : List Char) (c d : Char) (rest : List Char) :
    scan (.quoted mark s) (c :: d :: rest) =
      if c = '\\' ∧ mark ≠ '`' then scan (.quoted mark (s ++ escaped d)) rest
      else if c ≠ mark then scan (.quoted mark (s ++ [c])) (d :: rest)
      else if d = mark then scan (.quoted mark (s ++ [mark])) rest
      else emit (.quoted mark s) (scan .normal (d :: rest)) := rfl

/-- Reading from an opening mark on is what the scan does there, whatever it has read since. -/
theorem scan_of_unquote {mark : Char} {s t rest : List Char} (h : unquote mark s = some (t, rest))
    (acc : List Char) :
    scan (.quoted mark acc) s = emit (.quoted mark (acc ++ t)) (scan .normal rest) := by
  -- One case for each clause of the scan, in its order.
  induction s using unquote.induct mark generalizing t acc with
  | case1 => simp [unquote] at h
  | case2 =>
    simp only [unquote, if_pos, Option.some.injEq, Prod.mk.injEq] at h
    obtain ⟨rfl, rfl⟩ := h
    simp [scan, emit]
  | case3 c hc => simp [unquote, hc] at h
  | case4 c d rest' hback ih =>
    rw [unquote, if_pos hback] at h
    obtain ⟨⟨t, r⟩, hrest, heq⟩ := Option.map_eq_some_iff.1 h
    cases heq
    rw [scan_quoted_cons, if_pos hback, ih hrest, List.append_assoc]
  | case5 c d rest' hback hc ih =>
    rw [unquote, if_neg hback, if_pos hc] at h
    obtain ⟨⟨t, r⟩, hrest, heq⟩ := Option.map_eq_some_iff.1 h
    cases heq
    rw [scan_quoted_cons, if_neg hback, if_pos hc, ih hrest, List.append_assoc]
  | case6 c rest' hback hc ih =>
    rw [unquote, if_neg hback, if_neg hc, if_pos rfl] at h
    obtain ⟨⟨t, r⟩, hrest, heq⟩ := Option.map_eq_some_iff.1 h
    cases heq
    rw [scan_quoted_cons, if_neg hback, if_neg hc, if_pos rfl, ih hrest, List.append_assoc]
  | case7 c d rest' hback hc hd =>
    rw [unquote, if_neg hback, if_neg hc, if_neg hd] at h
    obtain ⟨rfl, rfl⟩ := Prod.mk.inj (Option.some.inj h)
    rw [scan_quoted_cons, if_neg hback, if_neg hc, if_neg hd, List.append_nil]

/-- A token that begins at an opening mark is the first that the scan finds. -/
theorem scan_of_readQuoted {s rest : List Char} {t : Token} (h : readQuoted s = some (t, rest)) :
    scan .normal s = emit t (scan .normal rest) := by
  cases s with
  | nil => cases h
  | cons c s =>
    rw [readQuoted] at h
    by_cases hc : isMark c = true
    · rw [if_pos hc] at h
      obtain ⟨⟨u, r⟩, hread, heq⟩ := Option.map_eq_some_iff.1 h
      cases heq
      -- No mark opens a comment.
      have hopen : opensComment (c :: s) = false := by
        unfold opensComment
        split <;> simp_all [isMark]
      rw [scan, if_neg (by rw [hopen]; decide), if_pos hc, scan_of_unquote hread, List.nil_append]
    · rw [if_neg hc] at h
      cases h

/-- A mark ends what it encloses unless another one follows, which stands for the mark itself. -/
theorem unquote_mark {mark : Char} (hm : mark ≠ '\\') (rest : List Char) :
    unquote mark (mark :: rest) =
      if rest.head? = some mark then (unquote mark rest.tail).map (behind [mark])
      else some ([], rest) := by
  cases rest with
  | nil => simp [unquote]
  | cons d rest =>
    rw [unquote, if_neg (fun h => hm h.1), if_neg (fun h => h rfl)]
    simp only [List.head?_cons, List.tail_cons, Option.some.injEq]

/-- What is written character by character is read so, if what is written for each character is read
as that character. -/
theorem unquote_flatMap {mark : Char} {write : Char → List Char}
    (hwrite : ∀ c t, t ≠ [] → unquote mark (write c ++ t) = (unquote mark t).map (behind [c]))
    (s : List Char) {t : List Char} (ht : t ≠ []) :
    unquote mark (s.flatMap write ++ t) = (unquote mark t).map (behind s) := by
  induction s with
  | nil => exact Option.map_id'.symm
  | cons c s ih =>
    have hne : s.flatMap write ++ t ≠ [] := List.append_ne_nil_of_right_ne_nil _ ht
    rw [List.flatMap_cons, List.append_assoc, hwrite c _ hne, ih, Option.map_map]
    rfl

/-- A character of a name. A backslash is no exception there. -/
theorem unquote_nameChar (c : Char) {t : List Char} (ht : t ≠ []) :
    unquote '`' ((if c = '`' then ['`', '`'] else [c]) ++ t) =
      (unquote '`' t).map (behind [c]) := by
  by_cases hc : c = '`'
  · rw [if_pos hc, hc, List.cons_append, unquote_mark (by decide)]
    rfl
  · obtain ⟨d, t, rfl⟩ := List.exists_cons_of_ne_nil ht
    rw [if_neg hc, List.singleton_append, unquote, if_neg (fun h => h.2 rfl), if_pos hc]

/-- A character of a text. Of two backslashes the first takes the second as it is. -/
theorem unquote_textChar (c : Char) {t : List Char} (ht : t ≠ []) :
    unquote '\'' ((if c = '\\' then ['\\', '\\'] else if c = '\'' then ['\'', '\''] else [c]) ++ t) =
      (unquote '\'' t).map (behind [c]) := by
  by_cases hback : c = '\\'
  · rw [if_pos hback, hback]
    rfl
  by_cases hc : c = '\''
  · rw [if_neg hback, if_pos hc, hc, List.cons_append, unquote_mark (by decide)]
    rfl
  · obtain ⟨d, t, rfl⟩ := List.exists_cons_of_ne_nil ht
    rw [if_neg hback, if_neg hc, List.singleton_append, unquote, if_neg (fun h => hback h.1),
      if_pos hc]

/-- From a quoted name on, reading comes to the name and goes on at its last mark. -/
theorem readQuoted_quoteName (s rest : List Char) : readQuoted (quoteName s ++ rest) =
    (unquote '`' ('`' :: rest)).map fun p => (.name (s ++ p.1), p.2) := by
  rw [quoteName, List.append_assoc, List.cons_append, readQuoted, if_pos (by rfl),
    List.singleton_append,
    unquote_flatMap (fun c _ => unquote_nameChar c) s (List.cons_ne_nil _ _), Option.map_map]
  rfl

/-- From a quoted text on, reading comes to the text and goes on at its last mark. -/
theorem readQuoted_quoteText (s rest : List Char) : readQuoted (quoteText s ++ rest) =
    (unquote '\'' ('\'' :: rest)).map fun p => (.text (s ++ p.1), p.2) := by
  rw [quoteText, List.append_assoc, List.cons_append, readQuoted, if_pos (by rfl),
    List.singleton_append,
    unquote_flatMap (fun c _ => unquote_textChar c) s (List.cons_ne_nil _ _), Option.map_map]
  rfl

/-- Reading goes on behind the last mark of a token just if the same mark does not follow. -/
theorem unquote_close_iff {mark : Char} (hm : mark ≠ '\\') {α : Type} {f : List Char → α}
    (hf : Function.Injective f) (s rest : List Char) :
    (unquote mark (mark :: rest)).map (fun p => (f (s ++ p.1), p.2)) = some (f s, rest) ↔
      rest.head? ≠ some mark := by
  rw [unquote_mark hm]
  by_cases hrest : rest.head? = some mark
  · rw [if_pos hrest]
    -- The mark that follows is one more character of the token.
    have hlonger (u : List Char) : f (s ++ (mark :: u)) ≠ f s := fun h => by
      have := congrArg List.length (hf h)
      simp at this
    cases unquote mark rest.tail <;> simp [behind, hlonger, hrest]
  · rw [if_neg hrest]
    simp [hrest]

theorem readQuoted_quoteName_iff {s rest : List Char} :
    readQuoted (quoteName s ++ rest) = some (.name s, rest) ↔ rest.head? ≠ some '`' := by
  rw [readQuoted_quoteName]
  exact unquote_close_iff (by decide) (fun _ _ => Token.name.inj) s rest

theorem readQuoted_quoteText_iff {s rest : List Char} :
    readQuoted (quoteText s ++ rest) = some (.text s, rest) ↔ rest.head? ≠ some '\'' := by
  rw [readQuoted_quoteText]
  exact unquote_close_iff (by decide) (fun _ _ => Token.text.inj) s rest

/-- A quoted name is one token with the name in it. -/
theorem scan_quoteName (s : List Char) {rest : List Char} (hr : rest.head? ≠ some '`') :
    scan .normal (quoteName s ++ rest) = emit (.name s) (scan .normal rest) :=
  scan_of_readQuoted (readQuoted_quoteName_iff.2 hr)

/-- A quoted text is one token with the text in it. -/
theorem scan_quoteText (s : List Char) {rest : List Char} (hr : rest.head? ≠ some '\'') :
    scan .normal (quoteText s ++ rest) = emit (.text s) (scan .normal rest) :=
  scan_of_readQuoted (readQuoted_quoteText_iff.2 hr)

/-- What is read back is not what anything else is quoted as. -/
theorem injective_of_read {quote : List Char → List Char} {f : List Char → Token}
    (hf : Function.Injective f) (hread : ∀ s, readQuoted (quote s ++ []) = some (f s, [])) :
    Function.Injective quote := by
  intro s t hst
  have hs := hread s
  rw [hst, hread t] at hs
  exact hf (Prod.mk.inj (Option.some.inj hs)).1.symm

/-- A quoted text is read back as that text, and what follows it is left, just if no quote follows;
so is a quoted name just if no backtick follows. No two texts are quoted alike and no two names. -/
theorem quoted_reads_back :
    (∀ s rest, readQuoted (quoteText s ++ rest) = some (.text s, rest) ↔ rest.head? ≠ some '\'') ∧
      (∀ s rest, readQuoted (quoteName s ++ rest) = some (.name s, rest) ↔
        rest.head? ≠ some '`') ∧
      Function.Injective quoteText ∧ Function.Injective quoteName := by
  refine ⟨fun s rest => readQuoted_quoteText_iff, fun s rest => readQuoted_quoteName_iff, ?_, ?_⟩
  · apply injective_of_read (fun _ _ => Token.text.inj)
    exact fun s => readQuoted_quoteText_iff.2 nofun
  · apply injective_of_read (fun _ _ => Token.name.inj)
    exact fun s => readQuoted_quoteName_iff.2 nofun

end CatalogQuery.Sql
