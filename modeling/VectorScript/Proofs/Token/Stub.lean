import VectorScript.Proofs.Token.Slice

/-!
# A text and a beginning of it

A text that is cut off somewhere has its tokens in common with the whole, up to the cut. What is left
of a token that the cut goes through is a stub: if no name is cut in two, a stub reads as no name and
no keyword, and as no mark but the beginning of a number or an operator. A comment that is cut in two
leaves nothing, or a slash.

    Parted (utf8Length b) (tokens (b ++ after)) (tokens b)                        (parted_tokens)
-/

namespace VectorScript

/-- What is left of a token that is cut in two reads as no name and no keyword, and as no mark but
the beginning of a number or an operator. -/
def Token.Blunt : Token → Prop
  | ident _ | word _ => False
  | mark m => m = .dot ∨ m = .assign
  | _ => True

namespace Lexer

variable {c : Char} {r x s after : List Char} {t : Token}

/-! ## Numbers -/

/-- What begins a number is a number. -/
theorem splitNumber_stub (p e : Bool) (s after : List Char)
    (h : s <+: (splitNumber p e (s ++ after)).1) : splitNumber p e s = (s, []) := by
  match s with
  | [] => rfl
  | c :: s =>
    have hc : numeral p e c = true := by
      apply Classical.byContradiction
      intro hc
      rw [splitNumber_of_head (by simpa using hc)] at h
      exact absurd (List.prefix_nil.1 h) (List.cons_ne_nil _ _)
    rw [List.cons_append] at h
    rcases numeral_cases hc with hdigit | ⟨rfl, rfl⟩ | ⟨hexponent, rfl⟩
    · rw [splitNumber_digit hdigit, List.cons_prefix_cons] at h
      rw [splitNumber_digit hdigit, splitNumber_stub p e s after h.2]
    · rw [splitNumber_point, List.cons_prefix_cons] at h
      rw [splitNumber_point, splitNumber_stub false e s after h.2]
    · cases s with
      | nil =>
        rw [splitNumber_exponent hexponent (by simp)]
        rfl
      | cons d s =>
        rw [List.cons_append] at h
        cases hd : isSign d with
        | true =>
          rw [splitNumber_signed hexponent hd, List.cons_prefix_cons, List.cons_prefix_cons] at h
          rw [splitNumber_signed hexponent hd, splitNumber_stub false false s after h.2.2]
        | false =>
          have hhead (s : List Char) : ∀ d' ∈ (d :: s).head?, isSign d' = false := by
            rintro _ ⟨⟩
            exact hd
          rw [splitNumber_exponent hexponent (hhead _), List.cons_prefix_cons] at h
          rw [splitNumber_exponent hexponent (hhead _), splitNumber_stub false false (d :: s) after h.2]
termination_by s.length

theorem blunt_number (text : List Char) : (numberToken text).Blunt := by
  unfold numberToken
  dsimp only
  split
  · split <;> trivial
  · split <;> trivial

theorem number_stub (after : List Char) (h : c :: r <+: (number (c :: (r ++ after))).text) :
    number (c :: r) = ⟨numberToken (c :: r), c :: r, []⟩ := by
  unfold number
  rw [splitNumber_stub true true (c :: r) after h]

/-- A number is cut right after its point, or has digits before the cut. -/
theorem startsNumber_stub (h : startsNumber c (r ++ after) = true) :
    startsNumber c r = true ∨ (c = '.' ∧ r = []) := by
  cases r with
  | cons d r => exact .inl h
  | nil =>
    cases hdigit : c.isDigit with
    | true => exact .inl (by simp [startsNumber, hdigit])
    | false => exact .inr ⟨((startsNumber_point hdigit _).1 h).1, rfl⟩

theorem startsNumber_of_stub (h : startsNumber c r = true) : startsNumber c (r ++ after) = true := by
  cases r with
  | cons d r => exact h
  | nil =>
    have hdigit : c.isDigit = true := by simpa [startsNumber] using h
    simp [startsNumber, hdigit]

/-! ## Text literals and signs -/

/-- A text literal that goes on after the cut has not been closed before it. -/
theorem textLiteral_stub (h : r.length < (textBody (r ++ after)).text.length) :
    ∃ t, t.Blunt ∧ textLiteral r = ⟨t, '"' :: r, []⟩ := by
  have happ := textBody_append r
  have hclosed : (textBody r).closed = false := by
    rw [Bool.eq_false_iff]
    intro hclosed
    rw [← happ] at hclosed
    have hbody := textBody_append_of (y := (textBody r).rest ++ after) (textBody r).text hclosed
      (by rw [happ])
    rw [← List.append_assoc, happ] at hbody
    rw [hbody] at h
    have hlength := congrArg List.length happ
    rw [List.length_append] at hlength
    dsimp only at h
    omega
  have hrest := rest_of_open r hclosed
  rw [hrest, List.append_nil] at happ
  refine ⟨.unknown (String.ofList ('"' :: (textBody r).content)), trivial, ?_⟩
  unfold textLiteral
  dsimp only
  rw [hclosed, happ, hrest]
  rfl

/-- The first character of an operator of two is an operator too, or an assignment mark. -/
theorem blunt_of_pair {d : Char} (h : Token.ofPair? c d = some t) :
    ((Token.ofChar? c).getD (.unknown (String.singleton c))).Blunt := by
  unfold Token.ofPair? at h
  split at h
  · trivial
  · trivial
  · exact .inr rfl
  · trivial
  · trivial
  · trivial
  · cases h

theorem sign_stub (hx : sign c (r ++ after) = ⟨t, c :: s, x⟩) (hlong : r.length < s.length) :
    r = [] ∧ ((Token.ofChar? c).getD (.unknown (String.singleton c))).Blunt := by
  unfold sign at hx
  dsimp only at hx
  split at hx
  · cases hx
    cases hlong
  · split at hx
    · next hpair =>
      cases hx
      exact ⟨List.length_eq_zero_iff.1 (Nat.lt_one_iff.1 hlong), blunt_of_pair hpair⟩
    · cases hx
      cases hlong

/-! ## Lexemes -/

/-- A lexeme that is cut in two leaves a stub, unless it is a name. -/
theorem scan_stub (hx : scan c (r ++ after) = ⟨t, c :: s, x⟩) (hlong : r.length < s.length)
    (hname : (c :: r).all isNameChar = false) :
    ∃ t', t'.Blunt ∧ scan c r = ⟨t', c :: r, []⟩ := by
  have happ : s ++ x = r ++ after := by
    have happ := scan_text_append_rest c (r ++ after)
    rw [hx] at happ
    exact (List.cons.inj happ).2
  have hwithin : c :: r <+: c :: s := by
    rw [List.cons_prefix_cons]
    exact ⟨rfl, List.prefix_of_prefix_length_le (List.prefix_append _ _) ⟨x, happ⟩ hlong.le⟩
  rw [scan_eq] at hx
  by_cases hstart : startsNumber c (r ++ after) = true
  · rw [if_pos hstart] at hx
    -- A point is a number only with the digit after it; cut off from that it is the sign.
    rcases startsNumber_stub hstart with hstart | ⟨rfl, rfl⟩
    · refine ⟨numberToken (c :: r), blunt_number _, ?_⟩
      rw [scan_eq, if_pos hstart]
      apply number_stub after
      rwa [hx]
    · exact ⟨.mark .dot, .inl rfl, rfl⟩
  rw [if_neg hstart] at hx
  by_cases hnamed : isNameStart c = true
  -- All of a name consists of name characters, and so does its part.
  · exfalso
    rw [if_pos hnamed] at hx
    have htext : (c :: (r ++ after)).takeWhile isNameChar = c :: s := congrArg Lexeme.text hx
    have hall : (c :: s).all isNameChar = true := by
      rw [← htext]
      exact List.all_takeWhile
    obtain ⟨d, hd, hnot⟩ := List.all_eq_false.1 hname
    exact hnot (List.all_eq_true.1 hall d (hwithin.mem hd))
  rw [if_neg hnamed] at hx
  rw [scan_eq, if_neg (fun h => hstart (startsNumber_of_stub h)), if_neg hnamed]
  by_cases hquote : c = '"'
  · subst hquote
    rw [if_pos rfl] at hx ⊢
    apply textLiteral_stub
    have htext : '"' :: (textBody (r ++ after)).text = '"' :: s := congrArg Lexeme.text hx
    rwa [(List.cons.inj htext).2]
  rw [if_neg hquote] at hx ⊢
  obtain ⟨rfl, hblunt⟩ := sign_stub hx hlong
  exact ⟨_, hblunt, rfl⟩

theorem utf8Length_le {s t : List Char} (h : s <+: t) : utf8Length s ≤ utf8Length t := by
  obtain ⟨r, rfl⟩ := h
  rw [utf8Length_append]
  exact Nat.le_add_right _ _

theorem utf8Length_lt {s t : List Char} (h : s <+: t) (hlen : s.length < t.length) :
    utf8Length s < utf8Length t := by
  obtain ⟨r, rfl⟩ := h
  rw [List.length_append] at hlen
  have hr := utf8Length_pos (List.length_pos_iff.1 (Nat.pos_of_lt_add_right hlen))
  rw [utf8Length_append]
  omega

theorem follows_append (x after : List Char) : Follows (x ++ after) x where
  head := by
    cases x with
    | nil => exact .inl rfl
    | cons d x => exact .inr (.inr rfl)
  last h := (List.append_eq_nil_iff.1 h).1

/-- A lexeme goes on after the cut and leaves a stub, or it ends before the cut and is the same. -/
theorem scan_cut (c : Char) (r after : List Char) (hname : (c :: r).all isNameChar = false) :
    (∃ t s x t', scan c (r ++ after) = ⟨t, c :: s, x⟩ ∧ utf8Length (c :: r) < utf8Length (c :: s) ∧
      scan c r = ⟨t', c :: r, []⟩ ∧ t'.Blunt) ∨
    ∃ t s x, r = s ++ x ∧ scan c (r ++ after) = ⟨t, c :: s, x ++ after⟩ ∧ scan c r = ⟨t, c :: s, x⟩ := by
  obtain ⟨s, x, hsx, hscan⟩ := exists_scan c (r ++ after)
  by_cases hlong : r.length < s.length
  · left
    obtain ⟨t, ht, hstub⟩ := scan_stub hscan hlong hname
    have hleads : r <+: s :=
      List.prefix_of_prefix_length_le (List.prefix_append r after) ⟨x, hsx.symm⟩ hlong.le
    refine ⟨_, s, x, t, hscan, ?_, hstub, ht⟩
    exact utf8Length_lt (List.cons_prefix_cons.2 ⟨rfl, hleads⟩) (Nat.succ_lt_succ hlong)
  · right
    have hleads : s <+: r :=
      List.prefix_of_prefix_length_le ⟨x, hsx.symm⟩ (List.prefix_append r after) (by omega)
    obtain ⟨x', rfl⟩ := hleads
    obtain rfl : x' ++ after = x := by
      rw [List.append_assoc] at hsx
      exact List.append_cancel_left hsx
    refine ⟨_, s, x', rfl, hscan, ?_⟩
    rw [hsx] at hscan ⊢
    exact scan_append hscan (follows_append x' after)

/-! ## Trivia -/

/-- Trivia are split off the part and off the whole: those of the whole go past the cut, and then the
part has no more than the first slash of a comment, or both leave the same lexeme. -/
inductive Trimmed (b after : List Char) : List Char × List Char → List Char × List Char → Prop
  | covered {part whole : List Char × List Char} (hwhole : b <+: whole.1)
      (hpart : part.2 = [] ∨ part.2 = ['/']) : Trimmed b after part whole
  | met {gap : List Char} {c : Char} {r : List Char} (hb : b = gap ++ c :: r) :
      Trimmed b after (gap, c :: r) (gap, c :: (r ++ after))

theorem Trimmed.cons {b after : List Char} {part whole : List Char × List Char}
    (h : Trimmed b after part whole) (d : Char) :
    Trimmed (d :: b) after (d :: part.1, part.2) (d :: whole.1, whole.2) := by
  cases h with
  | covered hwhole hpart => exact .covered (List.cons_prefix_cons.2 ⟨rfl, hwhole⟩) hpart
  | met hb => exact .met (congrArg (d :: ·) hb)

theorem trimmed_splitTrivia (inComment : Bool) (b after : List Char) :
    Trimmed b after (splitTrivia inComment b) (splitTrivia inComment (b ++ after)) := by
  induction b generalizing inComment with
  | nil => exact .covered List.nil_prefix (.inl rfl)
  | cons d b ih =>
    rw [List.cons_append]
    cases inComment with
    | true =>
      rw [splitTrivia_comment _ rfl, splitTrivia_comment _ rfl]
      exact (ih _).cons d
    | false =>
      by_cases hspace : isSpace d = true
      · rw [splitTrivia_blank hspace, splitTrivia_blank hspace]
        exact (ih _).cons d
      by_cases hslash : d = '/' ∧ (b ++ after).head? = some '/'
      · obtain ⟨rfl, hhead⟩ := hslash
        rw [splitTrivia_slash hhead]
        cases b with
        | nil => exact .covered (List.cons_prefix_cons.2 ⟨rfl, List.nil_prefix⟩) (.inr rfl)
        | cons d' b =>
          have hhead' : (d' :: b).head? = some '/' := hhead
          rw [splitTrivia_slash hhead']
          exact (ih _).cons '/'
      · have hslash' : ¬(d = '/' ∧ b.head? = some '/') := by
          rintro ⟨rfl, hhead⟩
          refine hslash ⟨rfl, ?_⟩
          rw [List.head?_append, hhead]
          rfl
        rw [splitTrivia_token hspace hslash, splitTrivia_token hspace hslash']
        exact .met rfl

/-! ## Tokens -/

/-- The tokens of a whole and of a part, which ends at a limit: those in common end within it, the
other ones of the whole after it, and the part has stubs in place of them. -/
inductive Parted (limit : Nat) : List (Token × Position) → List (Token × Position) → Prop
  | cut {rest stub : List (Token × Position)} : (∀ t ∈ stub, t.1.Blunt) →
      (∀ t ∈ rest, limit < t.2.offset + t.2.len) → Parted limit rest stub
  | token {t : Token × Position} {whole part : List (Token × Position)} :
      t.2.offset + t.2.len ≤ limit → Parted limit whole part → Parted limit (t :: whole) (t :: part)

theorem Parted.exists_common {limit : Nat} {whole part : List (Token × Position)}
    (h : Parted limit whole part) : ∃ common rest stub, whole = common ++ rest ∧
      part = common ++ stub ∧ (∀ t ∈ stub, t.1.Blunt) ∧
      (∀ t ∈ common, t.2.offset + t.2.len ≤ limit) ∧ ∀ t ∈ rest, limit < t.2.offset + t.2.len := by
  induction h with
  | cut hstub hrest => exact ⟨[], _, _, rfl, rfl, hstub, nofun, hrest⟩
  | @token t whole part ht _ ih =>
    obtain ⟨common, rest, stub, rfl, rfl, hstub, hcommon, hrest⟩ := ih
    exact ⟨t :: common, rest, stub, rfl, rfl, hstub, List.forall_mem_cons.2 ⟨ht, hcommon⟩, hrest⟩

theorem tokensFrom_nil (cursor : Cursor) : tokensFrom cursor [] = [] := tokensFrom_of_end rfl cursor

/-- Every token ends after the trivia before the first one. -/
theorem past_trivia (before cs : List Char) {t : Token × Position}
    (ht : t ∈ tokensFrom (Cursor.start.advance before) cs) :
    utf8Length (before ++ (splitTrivia false cs).1) < t.2.offset + t.2.len := by
  cases hsplit : (splitTrivia false cs).2 with
  | nil =>
    rw [tokensFrom_of_end hsplit] at ht
    cases ht
  | cons c rest =>
    rw [tokensFrom_lexeme hsplit] at ht
    have htext := utf8Length_pos (scan_text_ne_nil c rest)
    rcases List.mem_cons.1 ht with rfl | ht
    · show _ < utf8Length _ + utf8Length _
      omega
    · obtain ⟨gap, text, after, -, -, hplace⟩ := (tiles_tokensFrom _ _).piece ht
      rw [hplace]
      show _ < utf8Length _ + utf8Length _
      rw [utf8Length_append _ gap, utf8Length_append _ (scan c rest).text]
      omega

/-- Of a comment that is cut in two there is at most a slash. -/
theorem blunt_of_trimmed {before b : List Char}
    (h : (splitTrivia false b).2 = [] ∨ (splitTrivia false b).2 = ['/']) :
    ∀ t ∈ tokensFrom (Cursor.start.advance before) b, t.1.Blunt := by
  intro t ht
  rcases h with h | h
  · rw [tokensFrom_of_end h] at ht
    cases ht
  · rw [tokensFrom_lexeme h] at ht
    rcases List.mem_cons.1 ht with rfl | ht
    · trivial
    · exact absurd (tokensFrom_nil _ ▸ ht) List.not_mem_nil

theorem not_name_of_last {gap : List Char}
    (h : ∀ d ∈ (gap ++ c :: r).getLast?, isNameChar d = false) :
    (c :: r).all isNameChar = false := by
  have hlast : (c :: r).getLast (List.cons_ne_nil c r) ∈ (gap ++ c :: r).getLast? := by
    rw [List.getLast?_append, List.getLast?_eq_some_getLast (List.cons_ne_nil c r)]
    rfl
  exact List.all_eq_false.2 ⟨_, List.getLast_mem _, Bool.eq_false_iff.1 (h _ hlast)⟩

/-- A text that is cut off, but not within a name, and the whole of it. -/
theorem parted_tokensFrom (before b after : List Char)
    (hb : ∀ c ∈ b.getLast?, isNameChar c = false) :
    Parted (utf8Length (before ++ b)) (tokensFrom (Cursor.start.advance before) (b ++ after))
      (tokensFrom (Cursor.start.advance before) b) := by
  have htrimmed := trimmed_splitTrivia false b after
  generalize hwhole : splitTrivia false (b ++ after) = whole at htrimmed
  generalize hpart : splitTrivia false b = part at htrimmed
  cases htrimmed with
  -- The cut lies in what is skipped before the next token.
  | covered hleads hleft =>
    refine .cut (blunt_of_trimmed (hpart ▸ hleft)) fun t ht => ?_
    have hpast := past_trivia before (b ++ after) ht
    have hle := utf8Length_le hleads
    rw [hwhole, utf8Length_append] at hpast
    rw [utf8Length_append]
    omega
  | @met gap c r hgap =>
    have hsplit : (splitTrivia false (b ++ after)).2 = c :: (r ++ after) := by rw [hwhole]
    have hsplit' : (splitTrivia false b).2 = c :: r := by rw [hpart]
    rw [tokensFrom_lexeme hsplit, tokensFrom_lexeme hsplit', hwhole, hpart]
    subst hgap
    rcases scan_cut c r after (not_name_of_last hb) with
      ⟨t, s, x, t', hscan, hlong, hstub, ht'⟩ | ⟨t, s, x, rfl, hscan, hsame⟩
    · rw [hscan, hstub]
      dsimp only
      rw [tokensFrom_nil, ← List.append_assoc, utf8Length_append _ (c :: r)]
      -- The cut lies in the token: a stub is left of it, and all after it lies beyond.
      refine .cut (List.forall_mem_singleton.2 ht') (List.forall_mem_cons.2 ⟨?_, fun t ht => ?_⟩)
      · exact Nat.add_lt_add_left hlong _
      · have hpast := past_trivia _ x ht
        rw [utf8Length_append, utf8Length_append _ (c :: s)] at hpast
        omega
    · have hall : before ++ (gap ++ c :: (s ++ x)) = before ++ gap ++ (c :: s) ++ x := by simp
      rw [hscan, hsame, hall]
      refine .token ?_ (parted_tokensFrom (before ++ gap ++ c :: s) x after fun d hd => hb d ?_)
      · rw [utf8Length_append _ x, utf8Length_append _ (c :: s)]
        exact Nat.le_add_right _ _
      · rw [← List.cons_append, ← List.append_assoc, List.getLast?_append, hd]
        rfl
termination_by b.length

/-- A text is cut off, but not within a name: it has its tokens in common with the whole, up to the
cut. -/
theorem parted_tokens {b : List Char} (hb : ∀ c ∈ b.getLast?, isNameChar c = false)
    (after : List Char) : Parted (utf8Length b) (tokens (String.ofList (b ++ after)))
      (tokens (String.ofList b)) := by
  unfold tokens
  rw [String.toList_ofList, String.toList_ofList]
  exact parted_tokensFrom [] b after hb

end Lexer

end VectorScript
