/-
The patterns of the formatter.

A pattern is a row of pieces: a character that stands for itself, `%%` for a percent sign, and a
directive, which may have a text in braces behind it.  A directive without such a text is not
followed by an opening brace, so a pattern can be read in one way only.

* `parse_iff` — what the parser makes of a pattern, which error it finds, and where;
* `exists_pattern_iff` — the items that patterns stand for: any row of items where no two literals
  are next to each other, with a pattern that is written from it.
-/
import Droplet.Lib.Search
import Droplet.Logger.Formatter

open Http

namespace Logger

/-! ### Pieces -/

inductive Piece
  | char (c : UInt8)
  | percent
  | directive (d : UInt8) (braces : Option Bytes)
  deriving DecidableEq

namespace Piece

def text : Piece → Bytes
  | char c => [c]
  | percent => [37, 37]
  | directive d none => [37, d]
  | directive d (some format) => 37 :: d :: 123 :: (format ++ [125])

def texts (pieces : List Piece) : Bytes := pieces.flatMap text

/-- A row of pieces that can be told apart. -/
def Valid : List Piece → Prop
  | [] => True
  | char c :: rest => c ≠ 37 ∧ Valid rest
  | percent :: rest => Valid rest
  | directive d none :: rest => d ≠ 37 ∧ (texts rest).head? ≠ some 123 ∧ Valid rest
  | directive d (some format) :: rest => d ≠ 37 ∧ format ≠ [] ∧ 125 ∉ format ∧ Valid rest

/-- The items, behind a literal that is not yet among them. -/
def items (literal : Bytes) : List Piece → List (Option FormatItem)
  | [] => addLiteral literal []
  | char c :: rest => items (literal ++ [c]) rest
  | percent :: rest => items (literal ++ [37]) rest
  | directive d braces :: rest =>
    addLiteral literal [] ++ createFormatItem d (braces.getD []) :: items [] rest

/-- The rest of a pattern in which no piece begins. -/
def Broken : ParseError → Bytes → Prop
  | .incompleteDirective, tail => tail = [37]
  | .missingBrace, tail => ∃ d rest, tail = 37 :: d :: 123 :: rest ∧ d ≠ 37 ∧
      (rest.head? = some 125 ∨ 125 ∉ rest)
  | .nullItem, _ => False

end Piece

open Piece

variable {literal pattern tail : Bytes} {items' : List (Option FormatItem)} {pieces : List Piece}

theorem addLiteral_eq (literal : Bytes) (items' : List (Option FormatItem)) :
    addLiteral literal items' = items' ++ addLiteral literal [] := by
  rw [addLiteral, addLiteral]
  split_ifs
  · rw [List.append_nil]
  · rfl

/-! ### Reading a piece -/

theorem parseLoop_char {c : UInt8} (hc : c ≠ 37) (rest : Bytes) :
    parseLoop (c :: rest) 0 literal items' = parseLoop rest 0 (literal ++ [c]) items' := by
  rw [parseLoop, if_pos hc]

theorem parseLoop_percent (rest : Bytes) :
    parseLoop (37 :: 37 :: rest) 0 literal items' = parseLoop rest 0 (literal ++ [37]) items' := by
  rw [parseLoop, if_neg (not_not_intro rfl), List.head?_cons]
  dsimp only
  rw [if_pos rfl, parseLoop]

/-- Characters that the index has been moved over. -/
theorem parseLoop_drop (literal : Bytes) (items' : List (Option FormatItem))
    (skipped rest : Bytes) :
    parseLoop (skipped ++ rest) skipped.length literal items' = parseLoop rest 0 literal items' := by
  induction skipped with
  | nil => rfl
  | cons c skipped ih => rw [List.cons_append, List.length_cons, parseLoop, ih]

/-- A directive, as the text behind it says. -/
theorem parseLoop_directive {d : UInt8} (hd : d ≠ 37) (rest : Bytes) :
    parseLoop (37 :: d :: rest) 0 literal items' =
      match itemFormat rest with
      | .error e => .error e
      | .ok (format, skip) =>
        parseLoop rest skip [] (addLiteral literal items' ++ [createFormatItem d format]) := by
  rw [parseLoop, if_neg (not_not_intro rfl), List.head?_cons]
  dsimp only
  rw [if_neg hd, List.drop_one, List.tail_cons]
  rcases itemFormat rest with e | ⟨format, skip⟩
  · rfl
  · dsimp only
    rw [Nat.add_comm, parseLoop]

theorem itemFormat_none {rest : Bytes} (h : rest.head? ≠ some 123) :
    itemFormat rest = .ok ([], 0) := by
  rw [itemFormat, if_neg h]

theorem itemFormat_some {format : Bytes} (hne : format ≠ []) (hbrace : (125 : UInt8) ∉ format)
    (rest : Bytes) :
    itemFormat (123 :: (format ++ 125 :: rest)) = .ok (format, format.length + 2) := by
  have hclosing : (format ++ 125 :: rest).findIdx? (· == 125) = some format.length := by
    have hnone : format.findIdx? (· == 125) = none := by
      rw [List.findIdx?_eq_none_iff]
      intro b hb
      exact beq_eq_false_iff_ne.mpr fun h => hbrace (h ▸ hb)
    rw [List.findIdx?_append, hnone, List.findIdx?_cons]
    simp
  have hpos : format.length ≠ 0 := mt List.length_eq_zero_iff.mp hne
  rw [itemFormat, List.head?_cons, if_pos rfl, List.drop_one, List.tail_cons, hclosing]
  dsimp only
  rw [if_neg hpos, List.take_left]

theorem itemFormat_missing {rest : Bytes} (h : rest.head? = some 125 ∨ 125 ∉ rest) :
    itemFormat (123 :: rest) = .error .missingBrace := by
  rw [itemFormat, List.head?_cons, if_pos rfl, List.drop_one, List.tail_cons]
  rcases h with h | h
  · obtain ⟨rest, rfl⟩ : ∃ rest', rest = 125 :: rest' := by
      cases rest with
      | nil => exact absurd h (by simp)
      | cons b rest => exact ⟨rest, by rw [List.head?_cons] at h; rw [Option.some_inj.mp h]⟩
    rw [List.findIdx?_cons]
    rfl
  · have hnone : rest.findIdx? (· == 125) = none := by
      rw [List.findIdx?_eq_none_iff]
      intro b hb
      exact beq_eq_false_iff_ne.mpr fun heq => h (heq ▸ hb)
    rw [hnone]

/-! ### Reading a pattern -/

/-- The pieces of a pattern, one after another, with what follows them. -/
theorem parseLoop_texts (literal : Bytes) (items' : List (Option FormatItem)) (hvalid : Valid pieces)
    (htail : tail.head? ≠ some 123) :
    ∃ literal' items'', parseLoop (texts pieces ++ tail) 0 literal items' =
        parseLoop tail 0 literal' items'' ∧
      items'' ++ addLiteral literal' [] = items' ++ Piece.items literal pieces := by
  induction pieces generalizing literal items' with
  | nil => exact ⟨literal, items', rfl, rfl⟩
  | cons piece pieces ih =>
    rw [texts, List.flatMap_cons, ← texts]
    have hdirective : ∀ d braces, Piece.items literal (.directive d braces :: pieces) =
        addLiteral literal [] ++ ([createFormatItem d (braces.getD [])] ++
          Piece.items [] pieces) := fun _ _ => rfl
    match piece, hvalid with
    | .char c, hvalid =>
      obtain ⟨literal', items'', hloop, hitems⟩ := ih (literal ++ [c]) items' hvalid.2
      refine ⟨literal', items'', ?_, hitems⟩
      rw [← hloop]
      exact parseLoop_char hvalid.1 _
    | .percent, hvalid =>
      obtain ⟨literal', items'', hloop, hitems⟩ := ih (literal ++ [37]) items' hvalid
      refine ⟨literal', items'', ?_, hitems⟩
      rw [← hloop]
      exact parseLoop_percent _
    | .directive d none, hvalid =>
      obtain ⟨hd, hhead, hvalid⟩ := hvalid
      have hnone : (texts pieces ++ tail).head? ≠ some 123 := by
        rw [List.head?_append]
        cases htexts : (texts pieces).head? with
        | none => exact htail
        | some b => rwa [htexts] at hhead
      obtain ⟨literal', items'', hloop, hitems⟩ := ih []
        (addLiteral literal items' ++ [createFormatItem d []]) hvalid
      refine ⟨literal', items'', ?_, ?_⟩
      · rw [← hloop]
        show parseLoop (37 :: d :: (texts pieces ++ tail)) 0 literal items' = _
        rw [parseLoop_directive hd, itemFormat_none hnone]
      · rw [hitems, hdirective, addLiteral_eq literal items']
        simp only [List.append_assoc, Option.getD_none]
    | .directive d (some format), hvalid =>
      obtain ⟨hd, hne, hbrace, hvalid⟩ := hvalid
      obtain ⟨literal', items'', hloop, hitems⟩ := ih []
        (addLiteral literal items' ++ [createFormatItem d format]) hvalid
      refine ⟨literal', items'', ?_, ?_⟩
      · have htext : Piece.text (.directive d (some format)) ++ texts pieces ++ tail =
            37 :: d :: 123 :: (format ++ 125 :: (texts pieces ++ tail)) := by
          simp [Piece.text]
        have hskip := parseLoop_drop [] (addLiteral literal items' ++ [createFormatItem d format])
          (123 :: (format ++ [125])) (texts pieces ++ tail)
        have hlength : (123 :: (format ++ [125]) : Bytes).length = format.length + 2 := by simp
        have happend : 123 :: (format ++ [125]) ++ (texts pieces ++ tail) =
            123 :: (format ++ 125 :: (texts pieces ++ tail)) := by simp
        rw [hlength, happend] at hskip
        rw [← hloop, htext, parseLoop_directive hd, itemFormat_some hne hbrace]
        exact hskip
      · rw [hitems, hdirective, addLiteral_eq literal items']
        simp only [List.append_assoc, Option.getD_some]

theorem parseLoop_valid (hvalid : Valid pieces) :
    parseLoop (texts pieces) 0 [] [] = .ok (Piece.items [] pieces) := by
  have hnil : ([] : Bytes).head? ≠ some 123 := by simp
  obtain ⟨literal', items'', hloop, hitems⟩ := parseLoop_texts [] [] hvalid hnil
  rw [List.append_nil] at hloop
  rw [hloop, parseLoop, addLiteral_eq, hitems, List.nil_append]

theorem parseLoop_broken {e : ParseError} (hvalid : Valid pieces) (hbroken : Broken e tail) :
    parseLoop (texts pieces ++ tail) 0 [] [] = .error e := by
  have htail : tail.head? ≠ some 123 := by
    cases e with
    | incompleteDirective =>
      obtain rfl : tail = [37] := hbroken
      simp
    | missingBrace =>
      obtain ⟨d, rest, rfl, -⟩ := hbroken
      simp
    | nullItem => exact hbroken.elim
  obtain ⟨literal', items'', hloop, -⟩ := parseLoop_texts [] [] hvalid htail
  rw [hloop]
  cases e with
  | incompleteDirective =>
    obtain rfl : tail = [37] := hbroken
    rw [parseLoop, if_neg (not_not_intro rfl)]
    rfl
  | missingBrace =>
    obtain ⟨d, rest, rfl, hd, hrest⟩ := hbroken
    rw [parseLoop_directive hd, itemFormat_missing hrest]
  | nullItem => exact hbroken.elim

/-- Every pattern is a row of pieces up to where it is broken. -/
theorem exists_pieces (pattern : Bytes) : ∃ pieces tail, Valid pieces ∧
    pattern = texts pieces ++ tail ∧ (tail = [] ∨ ∃ e, Broken e tail) := by
  induction hlength : pattern.length using Nat.strongRecOn generalizing pattern with
  | ind n ih =>
    subst hlength
    match pattern with
    | [] => exact ⟨[], [], trivial, rfl, .inl rfl⟩
    | c :: rest =>
      by_cases hc : c = 37
      · subst hc
        match rest with
        | [] => exact ⟨[], [37], trivial, rfl, .inr ⟨.incompleteDirective, rfl⟩⟩
        | d :: rest =>
          by_cases hd : d = 37
          · subst hd
            obtain ⟨pieces, tail, hvalid, hrest, htail⟩ := ih rest.length (by simp) rest rfl
            exact ⟨.percent :: pieces, tail, hvalid, by rw [hrest]; rfl, htail⟩
          · by_cases hbrace : rest.head? = some 123
            · obtain ⟨rest, rfl⟩ : ∃ rest', rest = 123 :: rest' := by
                cases rest with
                | nil => exact absurd hbrace (by simp)
                | cons b rest =>
                  exact ⟨rest, by rw [List.head?_cons] at hbrace; rw [Option.some_inj.mp hbrace]⟩
              by_cases hbroken : rest.head? = some 125 ∨ 125 ∉ rest
              · exact ⟨[], _, trivial, rfl, .inr ⟨.missingBrace, d, rest, rfl, hd, hbroken⟩⟩
              · -- the text up to the first closing brace
                rw [not_or, not_not] at hbroken
                obtain ⟨hhead, hmem⟩ := hbroken
                obtain ⟨format, rest', rfl, hformat⟩ := List.eq_append_cons_of_mem hmem
                have hne : format ≠ [] := by
                  rintro rfl
                  exact hhead rfl
                obtain ⟨pieces, tail, hvalid, hrest, htail⟩ :=
                  ih rest'.length (by simp; omega) rest' rfl
                refine ⟨.directive d (some format) :: pieces, tail, ⟨hd, hne, hformat, hvalid⟩, ?_,
                  htail⟩
                rw [hrest]
                simp [texts, Piece.text]
            · obtain ⟨pieces, tail, hvalid, hrest, htail⟩ := ih rest.length (by simp) rest rfl
              refine ⟨.directive d none :: pieces, tail, ⟨hd, ?_, hvalid⟩, ?_, htail⟩
              · rw [hrest, List.head?_append] at hbrace
                cases htexts : (texts pieces).head? with
                | none => simp
                | some b => rwa [htexts] at hbrace
              · rw [hrest]
                rfl
      · obtain ⟨pieces, tail, hvalid, hrest, htail⟩ := ih rest.length (by simp) rest rfl
        exact ⟨.char c :: pieces, tail, ⟨hc, hvalid⟩, by rw [hrest]; rfl, htail⟩

theorem mapM_id_cons (i : FormatItem) (items' : List (Option FormatItem)) :
    (some i :: items').mapM id = (items'.mapM id).map (i :: ·) := by
  rw [List.mapM_cons]
  cases items'.mapM id <;> rfl

theorem mapM_id_eq_some {items : List FormatItem} :
    items'.mapM id = some items ↔ items' = items.map some := by
  induction items' generalizing items with
  | nil =>
    rw [List.mapM_nil]
    cases items with
    | nil => exact iff_of_true rfl rfl
    | cons i items => exact iff_of_false (by simp) (by simp)
  | cons i items' ih =>
    cases i with
    | none =>
      refine iff_of_false (by rw [List.mapM_cons]; simp) ?_
      cases items with
      | nil => simp
      | cons i items => simp
    | some i =>
      rw [mapM_id_cons, Option.map_eq_some_iff]
      constructor
      · rintro ⟨items, hmap, rfl⟩
        rw [ih.mp hmap, List.map_cons]
      · intro h
        cases items with
        | nil => exact absurd h (by simp)
        | cons j items =>
          rw [List.map_cons, List.cons.injEq, Option.some_inj] at h
          exact ⟨items, ih.mpr h.2, by rw [h.1]⟩

theorem mapM_id_eq_none : items'.mapM id = none ↔ none ∈ items' := by
  induction items' with
  | nil => exact iff_of_false (by simp) List.not_mem_nil
  | cons i items' ih =>
    cases i with
    | none => exact iff_of_true (by rw [List.mapM_cons]; rfl) List.mem_cons_self
    | some i =>
      rw [mapM_id_cons, Option.map_eq_none_iff, ih]
      simp

theorem texts_cons_ne_nil (piece : Piece) (pieces : List Piece) : texts (piece :: pieces) ≠ [] := by
  rw [texts, List.flatMap_cons]
  refine List.append_ne_nil_of_left_ne_nil ?_ _
  cases piece with
  | char | percent => exact List.cons_ne_nil _ _
  | directive d format => cases format <;> exact List.cons_ne_nil _ _

/-- A pattern is read in one way only. -/
theorem texts_injective {pieces' : List Piece} (h : Valid pieces) (h' : Valid pieces')
    (htexts : texts pieces = texts pieces') : pieces = pieces' := by
  induction pieces generalizing pieces' with
  | nil =>
    cases pieces' with
    | nil => rfl
    | cons piece pieces' => exact absurd htexts.symm (texts_cons_ne_nil piece pieces')
  | cons piece pieces ih =>
    cases pieces' with
    | nil => exact absurd htexts (texts_cons_ne_nil piece pieces)
    | cons piece' pieces' =>
      rw [texts, texts, List.flatMap_cons, List.flatMap_cons, ← texts, ← texts] at htexts
      match piece, piece', h, h' with
      | .char c, .char c', h, h' =>
        obtain ⟨rfl, hrest⟩ := List.cons.inj htexts
        rw [ih h.2 h'.2 hrest]
      | .char c, .percent, h, h' => exact absurd (List.cons.inj htexts).1 h.1
      | .char c, .directive d none, h, h' => exact absurd (List.cons.inj htexts).1 h.1
      | .char c, .directive d (some format), h, h' => exact absurd (List.cons.inj htexts).1 h.1
      | .percent, .char c, h, h' => exact absurd (List.cons.inj htexts).1.symm h'.1
      | .directive d none, .char c, h, h' => exact absurd (List.cons.inj htexts).1.symm h'.1
      | .directive d (some format), .char c, h, h' =>
        exact absurd (List.cons.inj htexts).1.symm h'.1
      | .percent, .percent, h, h' =>
        have hrest : texts pieces = texts pieces' := (List.cons.inj (List.cons.inj htexts).2).2
        have hvalid' : Valid pieces' := h'
        rw [ih h hvalid' hrest]
      | .percent, .directive d none, h, h' =>
        exact absurd (List.cons.inj (List.cons.inj htexts).2).1.symm h'.1
      | .percent, .directive d (some format), h, h' =>
        exact absurd (List.cons.inj (List.cons.inj htexts).2).1.symm h'.1
      | .directive d none, .percent, h, h' =>
        exact absurd (List.cons.inj (List.cons.inj htexts).2).1 h.1
      | .directive d (some format), .percent, h, h' =>
        exact absurd (List.cons.inj (List.cons.inj htexts).2).1 h.1
      | .directive d none, .directive d' none, h, h' =>
        obtain ⟨rfl, hrest⟩ := List.cons.inj (List.cons.inj htexts).2
        rw [ih h.2.2 h'.2.2 hrest]
      -- an opening brace is behind one of the directives only
      | .directive d none, .directive d' (some format), h, h' =>
        have hrest : texts pieces = 123 :: (format ++ [125] ++ texts pieces') :=
          (List.cons.inj (List.cons.inj htexts).2).2
        exact absurd (by rw [hrest]; rfl) h.2.1
      | .directive d (some format), .directive d' none, h, h' =>
        have hrest : 123 :: (format ++ [125] ++ texts pieces) = texts pieces' :=
          (List.cons.inj (List.cons.inj htexts).2).2
        exact absurd (by rw [← hrest]; rfl) h'.2.1
      | .directive d (some format), .directive d' (some format'), h, h' =>
        obtain ⟨rfl, hrest⟩ := List.cons.inj (List.cons.inj htexts).2
        have hformat : format ++ 125 :: texts pieces = format' ++ 125 :: texts pieces' := by
          simpa using (List.cons.inj hrest).2
        have hsame := congrArg (List.takeWhile (· != 125)) hformat
        rw [Search.takeWhile_append_cons h.2.2.1, Search.takeWhile_append_cons h'.2.2.1] at hsame
        subst hsame
        rw [ih h.2.2.2 h'.2.2.2 (List.cons.inj (List.append_cancel_left hformat)).2]

/-- The loop takes exactly the rows of pieces. -/
theorem parseLoop_eq_ok_iff :
    parseLoop pattern 0 [] [] = .ok items' ↔
      ∃ pieces, Valid pieces ∧ texts pieces = pattern ∧ Piece.items [] pieces = items' := by
  constructor
  · intro h
    obtain ⟨pieces, tail, hvalid, rfl, rfl | ⟨e, hbroken⟩⟩ := exists_pieces pattern
    · rw [List.append_nil, parseLoop_valid hvalid] at h
      exact ⟨pieces, hvalid, (List.append_nil _).symm, Except.ok.inj h⟩
    · rw [parseLoop_broken hvalid hbroken] at h
      exact absurd h (by simp)
  · rintro ⟨pieces, hvalid, rfl, rfl⟩
    exact parseLoop_valid hvalid

theorem parseLoop_eq_error_iff {e : ParseError} :
    parseLoop pattern 0 [] [] = .error e ↔
      ∃ pieces tail, Valid pieces ∧ pattern = texts pieces ++ tail ∧ Broken e tail := by
  constructor
  · intro h
    obtain ⟨pieces, tail, hvalid, rfl, rfl | ⟨e', hbroken⟩⟩ := exists_pieces pattern
    · rw [List.append_nil, parseLoop_valid hvalid] at h
      exact absurd h (by simp)
    · rw [parseLoop_broken hvalid hbroken] at h
      obtain rfl := Except.error.inj h
      exact ⟨pieces, tail, hvalid, rfl, hbroken⟩
  · rintro ⟨pieces, tail, hvalid, rfl, hbroken⟩
    exact parseLoop_broken hvalid hbroken

/-- **Patterns.**  The parser takes exactly the rows of pieces whose directives it knows, each in
one way, and makes an item of each directive and of each longest row of other pieces; it answers
that an item is missing where it does not know a directive; and the other errors say where the row
of pieces breaks off: at a last percent sign, or at braces that are not closed or empty. -/
theorem parse_iff (pattern : Bytes) :
    (∀ items, parse pattern = .ok items ↔
      ∃! pieces, Valid pieces ∧ texts pieces = pattern ∧ Piece.items [] pieces = items.map some) ∧
    (parse pattern = .error .nullItem ↔
      ∃! pieces, Valid pieces ∧ texts pieces = pattern ∧ none ∈ Piece.items [] pieces) ∧
    ∀ e, e ≠ .nullItem → (parse pattern = .error e ↔
      ∃ pieces tail, Valid pieces ∧ pattern = texts pieces ++ tail ∧ Broken e tail) := by
  have hunique : ∀ P : List Piece → Prop,
      (∃ pieces, Valid pieces ∧ texts pieces = pattern ∧ P pieces) →
        ∃! pieces, Valid pieces ∧ texts pieces = pattern ∧ P pieces := by
    rintro P ⟨pieces, hvalid, htexts, hP⟩
    exact ⟨pieces, ⟨hvalid, htexts, hP⟩, fun pieces' h' =>
      texts_injective h'.1 hvalid (h'.2.1.trans htexts.symm)⟩
  rw [parse]
  rcases hloop : parseLoop pattern 0 [] [] with e | items'
  · -- no row of pieces is the pattern
    have hnone : ¬ ∃ pieces, Valid pieces ∧ texts pieces = pattern := by
      rintro ⟨pieces, hvalid, rfl⟩
      rw [parseLoop_valid hvalid] at hloop
      exact absurd hloop (by simp)
    have herror : ∀ e', (Except.error e : Except ParseError (List FormatItem)) = .error e' ↔
        ∃ pieces tail, Valid pieces ∧ pattern = texts pieces ++ tail ∧ Broken e' tail := by
      intro e'
      rw [← parseLoop_eq_error_iff, hloop, Except.error.injEq, Except.error.injEq]
    refine ⟨fun items => iff_of_false (by simp) ?_, iff_of_false ?_ ?_, fun e' _ => herror e'⟩
    · rintro ⟨pieces, ⟨hvalid, htexts, -⟩, -⟩
      exact hnone ⟨pieces, hvalid, htexts⟩
    · intro h
      obtain ⟨pieces, tail, -, -, hbroken⟩ := (herror _).mp h
      exact hbroken
    · rintro ⟨pieces, ⟨hvalid, htexts, -⟩, -⟩
      exact hnone ⟨pieces, hvalid, htexts⟩
  · obtain ⟨pieces, hvalid, htexts, rfl⟩ := parseLoop_eq_ok_iff.mp hloop
    have hsame : ∀ pieces', Valid pieces' → texts pieces' = pattern → pieces' = pieces :=
      fun pieces' hvalid' htexts' => texts_injective hvalid' hvalid (htexts'.trans htexts.symm)
    have hno : ∀ e, ¬ ∃ pieces tail, Valid pieces ∧ pattern = texts pieces ++ tail ∧
        Broken e tail := by
      intro e hbroken
      rw [parseLoop_eq_error_iff.mpr hbroken] at hloop
      exact absurd hloop (by simp)
    dsimp only
    cases hmap : (Piece.items [] pieces).mapM id with
    | none =>
      have hmem := mapM_id_eq_none.mp hmap
      refine ⟨fun items => iff_of_false (by simp) ?_,
        iff_of_true rfl (hunique _ ⟨pieces, hvalid, htexts, hmem⟩),
        fun e he => iff_of_false (fun h => he (Except.error.inj h).symm) (hno e)⟩
      rintro ⟨pieces', ⟨hvalid', htexts', hitems⟩, -⟩
      rw [hsame pieces' hvalid' htexts'] at hitems
      rw [mapM_id_eq_some.mpr hitems] at hmap
      exact absurd hmap (by simp)
    | some items =>
      have hitems := mapM_id_eq_some.mp hmap
      refine ⟨fun items' => ?_, iff_of_false (by simp) ?_, fun e _ => iff_of_false (by simp) (hno e)⟩
      · constructor
        · intro h
          obtain rfl := Except.ok.inj h
          exact hunique _ ⟨pieces, hvalid, htexts, hitems⟩
        · rintro ⟨pieces', ⟨hvalid', htexts', hitems'⟩, -⟩
          rw [hsame pieces' hvalid' htexts'] at hitems'
          rw [mapM_id_eq_some.mpr hitems'] at hmap
          rw [Option.some_inj.mp hmap]
      · rintro ⟨pieces', ⟨hvalid', htexts', hmem⟩, -⟩
        rw [hsame pieces' hvalid' htexts', ← mapM_id_eq_none, hmap] at hmem
        exact absurd hmem (by simp)

/-! ### Writing a pattern -/

namespace FormatItem

/-- What an item of a pattern is like. -/
def Writable : FormatItem → Prop
  | .literal value => value ≠ []
  | .dateTime format => format ≠ [] ∧ 125 ∉ format
  | _ => True

def isLiteral : FormatItem → Bool
  | .literal _ => true
  | _ => false

/-- The directive of an item. -/
def letter : FormatItem → UInt8
  | .literal _ => 37
  | .message => 109
  | .level => 112
  | .elapsed => 114
  | .loggerName => 99
  | .threadId => 116
  | .newLine => 110
  | .dateTime _ => 100
  | .microseconds => 117
  | .fileName => 102
  | .line => 108
  | .tab => 84
  | .fiberId => 70
  | .threadName => 78

end FormatItem

/-- No literal is behind another. -/
def Normal : List FormatItem → Prop
  | [] => True
  | item :: rest => item.Writable ∧
      (item.isLiteral = true → ∀ next ∈ rest.head?, next.isLiteral = false) ∧ Normal rest

/-- A character of a literal. -/
def literalPiece (c : UInt8) : Piece := if c = 37 then .percent else .char c

/-- A pattern for the items; a text in braces that says nothing keeps a directive apart from an
opening brace of a literal. -/
def render : List FormatItem → List Piece
  | [] => []
  | .literal value :: rest => value.map literalPiece ++ render rest
  | .dateTime format :: rest => .directive 100 (some format) :: render rest
  | item :: rest => .directive item.letter
      (if (texts (render rest)).head? = some 123 then some [32] else none) :: render rest

theorem of_ite_some {α : Type} {p : Prop} [Decidable p] {a b : α} {o : Option α}
    (h : (if p then some a else o) = some b) : a = b ∨ o = some b := by
  by_cases hp : p
  · rw [if_pos hp] at h
    exact .inl (Option.some_inj.mp h)
  · rw [if_neg hp] at h
    exact .inr h

theorem createFormatItem_cases {d : UInt8} {format : Bytes} {item : FormatItem}
    (h : createFormatItem d format = some item) :
    item.isLiteral = false ∧ (item.Writable ∨
      item = .dateTime (if format = [] then defaultDateFormat else format)) := by
  rw [createFormatItem] at h
  rcases of_ite_some h with rfl | h
  · exact ⟨rfl, .inl trivial⟩
  rcases of_ite_some h with rfl | h
  · exact ⟨rfl, .inl trivial⟩
  rcases of_ite_some h with rfl | h
  · exact ⟨rfl, .inl trivial⟩
  rcases of_ite_some h with rfl | h
  · exact ⟨rfl, .inl trivial⟩
  rcases of_ite_some h with rfl | h
  · exact ⟨rfl, .inl trivial⟩
  rcases of_ite_some h with rfl | h
  · exact ⟨rfl, .inl trivial⟩
  -- the date, which is the only item with a text
  rcases of_ite_some h with rfl | h
  · exact ⟨rfl, .inr rfl⟩
  rcases of_ite_some h with rfl | h
  · exact ⟨rfl, .inl trivial⟩
  rcases of_ite_some h with rfl | h
  · exact ⟨rfl, .inl trivial⟩
  rcases of_ite_some h with rfl | h
  · exact ⟨rfl, .inl trivial⟩
  rcases of_ite_some h with rfl | h
  · exact ⟨rfl, .inl trivial⟩
  rcases of_ite_some h with rfl | h
  · exact ⟨rfl, .inl trivial⟩
  rcases of_ite_some h with rfl | h
  · exact ⟨rfl, .inl trivial⟩
  exact absurd h (by simp)

/-- A directive stands for an item that a pattern can have. -/
theorem createFormatItem_writable {d : UInt8} {braces : Option Bytes} {item : FormatItem}
    (hbraces : ∀ format ∈ braces, format ≠ [] ∧ 125 ∉ format)
    (h : createFormatItem d (braces.getD []) = some item) :
    item.Writable ∧ item.isLiteral = false := by
  obtain ⟨hliteral, hwritable | rfl⟩ := createFormatItem_cases h
  · exact ⟨hwritable, hliteral⟩
  · refine ⟨?_, hliteral⟩
    cases braces with
    | none => exact ⟨by decide, by decide⟩
    | some format =>
      obtain ⟨hne, hmem⟩ := hbraces format rfl
      rw [Option.getD_some, if_neg hne]
      exact ⟨hne, hmem⟩

theorem createFormatItem_letter {item : FormatItem} (h : item.isLiteral = false)
    (hdate : ∀ format, item ≠ .dateTime format) (format : Bytes) :
    createFormatItem item.letter format = some item := by
  cases item with
  | literal value => exact absurd h (by simp [FormatItem.isLiteral])
  | dateTime format => exact absurd rfl (hdate format)
  | _ => rfl

/-- A literal, where there is one, in front of items that do not begin with a literal. -/
theorem normal_addLiteral (literal : Bytes) (rest : List (Option FormatItem)) {items : List FormatItem}
    (hrest : ∀ items, rest = items.map some →
      Normal items ∧ ∀ item ∈ items.head?, item.isLiteral = false)
    (h : addLiteral literal [] ++ rest = items.map some) : Normal items := by
  rw [addLiteral] at h
  by_cases hempty : literal = []
  · rw [if_pos hempty] at h
    exact (hrest items h).1
  · rw [if_neg hempty] at h
    cases items with
    | nil => exact absurd h (by simp)
    | cons item items =>
      obtain ⟨hitem, hitems⟩ := List.cons.inj h
      obtain rfl := Option.some_inj.mp hitem
      obtain ⟨hnormal, hhead⟩ := hrest items hitems
      exact ⟨hempty, fun _ => hhead, hnormal⟩

theorem normal_directive {d : UInt8} {braces : Option Bytes} {rest : List (Option FormatItem)}
    (hbraces : ∀ format ∈ braces, format ≠ [] ∧ 125 ∉ format)
    (hrest : ∀ items, rest = items.map some → Normal items) {items : List FormatItem}
    (h : createFormatItem d (braces.getD []) :: rest = items.map some) :
    Normal items ∧ ∀ item ∈ items.head?, item.isLiteral = false := by
  cases items with
  | nil => exact absurd h (by simp)
  | cons item items =>
    obtain ⟨hitem, hitems⟩ := List.cons.inj h
    obtain ⟨hwritable, hliteral⟩ := createFormatItem_writable hbraces hitem
    refine ⟨⟨hwritable, fun htrue => ?_, hrest items hitems⟩, fun item' hitem' => ?_⟩
    · rw [hliteral] at htrue
      exact absurd htrue (by simp)
    · rw [← Option.some_inj.mp hitem']
      exact hliteral

/-- What a pattern stands for is normal. -/
theorem normal_items {items : List FormatItem} (hvalid : Valid pieces)
    (h : Piece.items literal pieces = items.map some) : Normal items := by
  induction pieces generalizing literal items with
  | nil =>
    refine normal_addLiteral literal [] (fun items hitems => ?_) ?_
    · cases items with
      | nil => exact ⟨trivial, fun item hitem => absurd hitem (by simp)⟩
      | cons item items => exact absurd hitems (by simp)
    · rw [List.append_nil]
      exact h
  | cons piece pieces ih =>
    match piece, hvalid with
    | .char c, hvalid => exact ih hvalid.2 h
    | .percent, hvalid => exact ih hvalid h
    | .directive d none, hvalid =>
      exact normal_addLiteral _ _ (fun items hitems => normal_directive (by simp)
        (fun items hitems => ih hvalid.2.2 hitems) hitems) h
    | .directive d (some format), hvalid =>
      refine normal_addLiteral _ _ (fun items hitems => normal_directive (fun format' hformat => ?_)
        (fun items hitems => ih hvalid.2.2.2 hitems) hitems) h
      obtain rfl := Option.some_inj.mp hformat
      exact ⟨hvalid.2.1, hvalid.2.2.1⟩

/-- A literal is read back from its characters. -/
theorem items_literalPiece (value : Bytes) (rest : List Piece) :
    Piece.items literal (value.map literalPiece ++ rest) = Piece.items (literal ++ value) rest := by
  induction value generalizing literal with
  | nil => rw [List.map_nil, List.nil_append, List.append_nil]
  | cons c value ih =>
    have hpiece : Piece.items literal (literalPiece c :: (value.map literalPiece ++ rest)) =
        Piece.items (literal ++ [c]) (value.map literalPiece ++ rest) := by
      rw [literalPiece]
      by_cases hc : c = 37
      · rw [if_pos hc, hc]
        rfl
      · rw [if_neg hc]
        rfl
    rw [List.map_cons, List.cons_append, hpiece, ih, List.append_assoc, List.singleton_append]

theorem valid_literalPiece (value : Bytes) {rest : List Piece} (h : Valid rest) :
    Valid (value.map literalPiece ++ rest) := by
  induction value with
  | nil => exact h
  | cons c value ih =>
    rw [List.map_cons, List.cons_append, literalPiece]
    by_cases hc : c = 37
    · rw [if_pos hc]
      exact ih
    · rw [if_neg hc]
      exact ⟨hc, ih⟩

theorem letter_ne (item : FormatItem) (h : item.isLiteral = false) : item.letter ≠ 37 := by
  cases item with
  | literal value => exact absurd h (by simp [FormatItem.isLiteral])
  | dateTime format => exact (by decide : (100 : UInt8) ≠ 37)
  | _ => decide

/-- An item that is no literal is written as a directive of its letter. -/
theorem render_cons (item : FormatItem) (rest : List FormatItem) (h : item.isLiteral = false) :
    ∃ braces, render (item :: rest) = .directive item.letter braces :: render rest ∧
      (item.Writable → ∀ format ∈ braces, format ≠ [] ∧ 125 ∉ format) ∧
      (braces = none → (texts (render rest)).head? ≠ some 123) ∧
      (item.Writable → createFormatItem item.letter (braces.getD []) = some item) := by
  by_cases hdate : ∃ format, item = .dateTime format
  · obtain ⟨format, rfl⟩ := hdate
    refine ⟨some format, rfl, fun hwritable format' hformat => ?_, fun hnone => ?_,
      fun hwritable => ?_⟩
    · rw [← Option.some_inj.mp hformat]
      exact hwritable
    · exact absurd hnone (by simp)
    · show some (FormatItem.dateTime (if format = [] then defaultDateFormat else format)) = _
      rw [if_neg hwritable.1]
  · have hother : ∀ format, item ≠ .dateTime format := fun format heq => hdate ⟨format, heq⟩
    refine ⟨if (texts (render rest)).head? = some 123 then some [32] else none, ?_,
      fun _ format hformat => ?_, fun hnone hhead => ?_,
      fun _ => createFormatItem_letter h hother _⟩
    · cases item with
      | literal value => exact absurd h (by simp [FormatItem.isLiteral])
      | dateTime format => exact absurd rfl (hother format)
      | _ => rfl
    · split_ifs at hformat
      · rw [← Option.some_inj.mp hformat]
        exact ⟨by simp, by decide⟩
      · exact absurd hformat (by simp)
    · rw [if_pos hhead] at hnone
      exact absurd hnone (by simp)

theorem valid_directive {d : UInt8} {braces : Option Bytes} {rest : List Piece} (hd : d ≠ 37)
    (hbraces : ∀ format ∈ braces, format ≠ [] ∧ 125 ∉ format)
    (hnone : braces = none → (texts rest).head? ≠ some 123) (h : Valid rest) :
    Valid (.directive d braces :: rest) := by
  cases braces with
  | none => exact ⟨hd, hnone rfl, h⟩
  | some format => exact ⟨hd, (hbraces format rfl).1, (hbraces format rfl).2, h⟩

theorem valid_render {items : List FormatItem} (h : Normal items) : Valid (render items) := by
  induction items with
  | nil => trivial
  | cons item items ih =>
    obtain ⟨hwritable, -, hnormal⟩ := h
    cases hliteral : item.isLiteral with
    | true =>
      cases item with
      | literal value => exact valid_literalPiece value (ih hnormal)
      | _ => exact absurd hliteral (by simp [FormatItem.isLiteral])
    | false =>
      obtain ⟨braces, hrender, hbraces, hnone, -⟩ := render_cons item items hliteral
      rw [hrender]
      exact valid_directive (letter_ne item hliteral) (hbraces hwritable) hnone (ih hnormal)

theorem items_render {items : List FormatItem} (h : Normal items) :
    Piece.items [] (render items) = items.map some ∧
      ∀ literal, (∀ item ∈ items.head?, item.isLiteral = false) →
        Piece.items literal (render items) = addLiteral literal [] ++ items.map some := by
  induction items with
  | nil => exact ⟨rfl, fun literal _ => (List.append_nil _).symm⟩
  | cons item items ih =>
    obtain ⟨hwritable, hnext, hnormal⟩ := h
    cases hliteral : item.isLiteral with
    | true =>
      cases item with
      | literal value =>
        refine ⟨?_, fun literal hhead => ?_⟩
        · have hrest := (ih hnormal).2 value (hnext hliteral)
          rw [render, items_literalPiece, List.nil_append, hrest, addLiteral, if_neg hwritable]
          rfl
        · have hfalse := hhead _ rfl
          rw [hliteral] at hfalse
          exact absurd hfalse (by simp)
      | _ => exact absurd hliteral (by simp [FormatItem.isLiteral])
    | false =>
      obtain ⟨braces, hrender, -, -, hitem⟩ := render_cons item items hliteral
      have hall : ∀ literal, Piece.items literal (render (item :: items)) =
          addLiteral literal [] ++ (item :: items).map some := by
        intro literal
        rw [hrender, Piece.items, hitem hwritable, (ih hnormal).1, List.map_cons]
      exact ⟨hall [], fun literal _ => hall literal⟩

/-- **The items of patterns** are the rows of items where no two literals are next to each other,
no literal and no date format is empty and no date format has a closing brace; and each of them is
what a pattern says that can be written from it. -/
theorem exists_pattern_iff (items : List FormatItem) :
    ((∃ pattern, parse pattern = .ok items) ↔ Normal items) ∧
      (Normal items → parse (texts (render items)) = .ok items) := by
  have hrender : Normal items → parse (texts (render items)) = .ok items := by
    intro h
    rw [parse, parseLoop_valid (valid_render h), (items_render h).1]
    dsimp only
    rw [mapM_id_eq_some.mpr rfl]
  refine ⟨⟨?_, fun h => ⟨_, hrender h⟩⟩, hrender⟩
  rintro ⟨pattern, hparse⟩
  rw [parse] at hparse
  rcases hloop : parseLoop pattern 0 [] [] with e | items'
  · rw [hloop] at hparse
    exact absurd hparse (by simp)
  · rw [hloop] at hparse
    dsimp only at hparse
    obtain ⟨pieces, hvalid, -, hitems⟩ := parseLoop_eq_ok_iff.mp hloop
    cases hmap : items'.mapM id with
    | none =>
      rw [hmap] at hparse
      exact absurd hparse (by simp)
    | some items'' =>
      rw [hmap] at hparse
      obtain rfl := Except.ok.inj hparse
      exact normal_items hvalid (hitems.trans (mapM_id_eq_some.mp hmap))

example : texts (render [.message, .literal (ascii "\x7b%"), .level]) = ascii "%m\x7b \x7d\x7b%%%p" := by
  decide

end Logger
