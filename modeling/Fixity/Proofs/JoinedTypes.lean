import Fixity.Proofs.TypeLanguage

/-! Type expressions put together from texts. The meaning of a text is told by the meaning of its
parts: a phrase of the grammar of types denotes an expression, and what is parsed is what the text
without its blanks denotes. So texts can be joined and enclosed before they are parsed, and what
they mean is joined in the same way. -/
namespace Fixity

open Grammar (types Phrase)

/-- The phrase that a bracketing is without anything around it. -/
def Bracketing.phrase : Bracketing → Phrase
  | .value _ | .enclosed _ _ => .primary
  | .before _ _ | .after _ _ => .operand
  | .binary _ _ _ => .expression

namespace TypeExpression

variable {r : Bracketing}

/-- What yields to an array or resists a union is no union itself. -/
theorem phrase_ne_expression (ho : r.Over types.toVocabulary)
    (h : r.YieldsTo .array ∨ r.Resists .union) : r.phrase ≠ .expression := by
  cases r with
  | binary op l r =>
    obtain rfl := eq_union_of_binary ho.1.1 ho.1.2
    rcases h with h | h
    · exact absurd (Bracketing.yieldsTo_binary.1 h).1 (by decide)
    · exact absurd (Bracketing.resists_binary.1 h).1 (by decide)
  | _ => simp [Bracketing.phrase]

/-- Whatever stands before `|` is an operand of it. -/
theorem yieldsTo_union (ho : r.Over types.toVocabulary) : r.YieldsTo .union := by
  intro op hop
  rcases eq_array_or_eq_union (ho.mem_operators_of_mem_rightEdge hop) with rfl | rfl <;> decide

/-- The text puts some texts together with `|`, in their order and with parentheses anywhere around
them. -/
inductive Grouped : List String → String → Prop where
  | single (s : String) : Grouped [s] s
  | joined {ss us : List String} {s u : String} (hs : Grouped ss s) (hu : Grouped us u) :
      Grouped (ss ++ us) (s ++ "|" ++ u)
  | enclosed {ss : List String} {s : String} (h : Grouped ss s) : Grouped ss ("(" ++ s ++ ")")

theorem grouped_intercalate {ss : List String} (h : ss ≠ []) : Grouped ss ("|".intercalate ss) := by
  induction ss with
  | nil => exact absurd rfl h
  | cons s ss ih =>
    cases ss with
    | nil => simpa using Grouped.single s
    | cons u us => simpa using (Grouped.single s).joined (ih (by simp))

section

variable [WordClass]

/-- The texts of phrases with what they mean: a name itself, what is enclosed, the array of what
stands before `[]` and the union of what stands on both sides of `|`. -/
inductive Denotes : Phrase → List Char → TypeExpression → Prop where
  | name (n : TypeName) : Denotes .primary n.chars (.name n)
  | enclosed {w : List Char} {e : TypeExpression} (h : Denotes .expression w e) :
      Denotes .primary ('(' :: (w ++ [')'])) e
  | primary {w : List Char} {e : TypeExpression} (h : Denotes .primary w e) :
      Denotes .operand w e
  | array {w : List Char} {e : TypeExpression} (h : Denotes .operand w e) :
      Denotes .operand (w ++ ['[', ']']) (.array e)
  | operand {w : List Char} {e : TypeExpression} (h : Denotes .operand w e) :
      Denotes .expression w e
  | union {w u : List Char} {e f : TypeExpression} (hl : Denotes .expression w e)
      (hr : Denotes .operand u f) : Denotes .expression (w ++ '|' :: u) (unionOf [e, f])

variable {k : Phrase} {w u : List Char} {e f : TypeExpression} {es : List TypeExpression}

/-- A union of unions is the union of all that these are unions of. -/
theorem unionOf_unionOf {fs : List TypeExpression} (hes : ∀ t ∈ es, t.Flat)
    (hfs : ∀ t ∈ fs, t.Flat) : unionOf [unionOf es, unionOf fs] = unionOf (es ++ fs) := by
  apply unionOf_congr
  simp [members_unionOf hes, members_unionOf hfs]

namespace Denotes

theorem flat (h : Denotes k w e) : e.Flat := by
  induction h with
  | name n => exact .name n
  | enclosed _ ih => exact ih
  | primary _ ih => exact ih
  | array _ ih => exact .array ih
  | operand _ ih => exact ih
  | union _ _ ihl ihr => exact flat_unionOf (by simp) (by simp [ihl, ihr])

theorem as_operand (h : Denotes k w e) (hk : k ≠ .expression) : Denotes .operand w e := by
  cases k with
  | primary => exact .primary h
  | operand => exact h
  | expression => exact absurd rfl hk

theorem as_expression (h : Denotes k w e) : Denotes .expression w e := by
  cases k with
  | primary => exact .operand (.primary h)
  | operand => exact .operand h
  | expression => exact h

/-- The members of the second union are added to the first one after the other. -/
theorem join (h : Denotes .expression w e) (h' : Denotes k u f) :
    Denotes .expression (w ++ '|' :: u) (unionOf [e, f]) := by
  induction h' with
  | name n => exact .union h (.primary (.name n))
  | enclosed h' _ => exact .union h (.primary (.enclosed h'))
  | primary _ ih => exact ih
  | array h' _ => exact .union h (.array h')
  | operand _ ih => exact ih
  | @union v u f f' hl hr ihl _ =>
    -- `w|v` and then `u`: the first text is joined to the left part, and the union is regrouped.
    have hnext := Denotes.union ihl hr
    have he : unionOf [unionOf [e, f], f'] = unionOf [e, unionOf [f, f']] := by
      apply unionOf_congr
      simp [members_unionOf, h.flat, hl.flat, hr.flat]
    rw [he] at hnext
    simpa using hnext

end Denotes

/-! What is denoted and what is read. -/

/-- The text of a bracketing without conflicts denotes what is read from its tree. -/
theorem denotes_of_ofTree (ho : r.Over types.toVocabulary) (hc : r.ConflictFree)
    (he : ofTree r.tree = .ok e) : Denotes r.phrase (joinTokens r.tokens) e := by
  induction r generalizing e with
  | value x =>
    rw [Bracketing.tree, ofTree] at he
    by_cases hx : IsName x.chars
    · rw [ofChars_of_isName hx] at he
      cases he
      simpa [Bracketing.phrase, Bracketing.tokens] using Denotes.name ⟨x.chars, hx.1, hx.2⟩
    · rw [ofChars_of_not_isName hx] at he
      cases he
  | before op r _ => exact absurd ho.1.2 (arity_ne_before ho.1.1)
  | after op r ih =>
    obtain rfl := eq_array_of_after ho.1.1 ho.1.2
    obtain ⟨x, hx, rfl⟩ := ofTree_array_eq_ok_iff.1 he
    -- Without a conflict no union stands before `[]`, and below none after `|`.
    have hr := (ih ho.2 hc.1 hx).as_operand (phrase_ne_expression ho.2 (.inl hc.2))
    simpa [Bracketing.phrase, Bracketing.tokens, Operator.array, Token.literal] using hr.array
  | binary op l r ihl ihr =>
    obtain rfl := eq_union_of_binary ho.1.1 ho.1.2
    obtain ⟨x, hx, y, hy, rfl⟩ := ofTree_unionTree_eq_ok_iff.1 he
    have hl := (ihl ho.2.1 hc.1.1 hx).as_expression
    have hr := (ihr ho.2.2 hc.2.1 hy).as_operand (phrase_ne_expression ho.2.2 (.inr hc.2.2))
    simpa [Bracketing.phrase, Bracketing.tokens, Operator.union, Token.literal] using hl.union hr
  | enclosed p r ih =>
    obtain rfl : p = .parentheses := by simpa [types] using ho.1.mem
    have hr := (ih ho.2 hc he).as_expression
    simpa [Bracketing.phrase, Bracketing.tokens, DelimiterPair.parentheses, Token.literal] using
      hr.enclosed

/-- What a text denotes is read from the tree of a bracketing without conflicts, which can be the
operand of an array or the right operand of a union if the text is no more than an operand. -/
theorem Denotes.exists_bracketing (h : Denotes k w e) :
    ∃ r : Bracketing, r.Over types.toVocabulary ∧ r.HasFreeValues types.toVocabulary ∧
      r.ConflictFree ∧ joinTokens r.tokens = w ∧ ofTree r.tree = .ok e ∧
      (k ≠ .expression → r.YieldsTo .array ∧ r.Resists .union) := by
  induction h with
  | name n =>
    refine ⟨.value n.token, Vocabulary.isValue_of_free n.free_chars,
      Bracketing.hasFreeValues_value n.free_chars, trivial, by simp [Bracketing.tokens],
      ofTree_name n, ?_⟩
    exact fun _ => ⟨List.forall_mem_nil _, List.forall_mem_nil _⟩
  | enclosed _ ih =>
    obtain ⟨r, ho, hfree, hc, rfl, he, -⟩ := ih
    refine ⟨.enclosed .parentheses r, ⟨Grammar.isEffective_parentheses_types, ho⟩, hfree, hc,
      by simp [Bracketing.tokens, DelimiterPair.parentheses, Token.literal], he, ?_⟩
    exact fun _ => ⟨List.forall_mem_nil _, List.forall_mem_nil _⟩
  | primary _ ih =>
    obtain ⟨r, ho, hfree, hc, rfl, he, hedges⟩ := ih
    exact ⟨r, ho, hfree, hc, rfl, he, fun _ => hedges (by simp)⟩
  | array _ ih =>
    obtain ⟨r, ho, hfree, hc, rfl, he, hedges⟩ := ih
    obtain ⟨hy, hres⟩ := hedges (by simp)
    refine ⟨.after .array r, ⟨⟨by decide, rfl⟩, ho⟩, Bracketing.hasFreeValues_after.2 hfree,
      ⟨hc, hy⟩, by simp [Bracketing.tokens, Operator.array, Token.literal], ofTree_array he, ?_⟩
    intro _
    refine ⟨?_, Bracketing.resists_after.2 ⟨by decide, hres⟩⟩
    intro op hop
    obtain rfl := List.mem_singleton.1 hop
    decide
  | operand _ ih =>
    obtain ⟨r, ho, hfree, hc, rfl, he, -⟩ := ih
    exact ⟨r, ho, hfree, hc, rfl, he, absurd rfl⟩
  | union _ _ ihl ihr =>
    obtain ⟨l, hol, hfreel, hcl, rfl, hel, -⟩ := ihl
    obtain ⟨r, hor, hfreer, hcr, rfl, her, hedges⟩ := ihr
    exact ⟨.binary .union l r, ⟨⟨by decide, rfl⟩, hol, hor⟩,
      Bracketing.hasFreeValues_binary.2 ⟨hfreel, hfreer⟩,
      ⟨⟨hcl, yieldsTo_union hol⟩, hcr, (hedges (by simp)).2⟩,
      by simp [Bracketing.tokens, Operator.union, Token.literal], ofTree_unionTree hel her,
      absurd rfl⟩

theorem parse_eq_ok_iff_denotes {s : String} :
    parse s = .ok e ↔ Denotes .expression (withoutBlanks s.toList) e := by
  rw [parse, bind_eq_ok_iff]
  simp only [mapError_eq_ok_iff, Vocabulary.parse, Vocabulary.parseFrom_eq_ok_iff_read?]
  constructor
  · rintro ⟨t, ⟨r, hread, rfl⟩, he⟩
    obtain ⟨⟨ho, htokens⟩, hc⟩ := Vocabulary.reads_of_read? hread
    obtain ⟨hjoin, -⟩ := SymbolTable.tokenize_eq_iff.1 htokens.symm
    rw [← hjoin]
    exact (denotes_of_ofTree ho hc he).as_expression
  · intro h
    obtain ⟨r, ho, hfree, hc, hw, he, -⟩ := h.exists_bracketing
    have htok : types.tokenize s = r.tokens :=
      SymbolTable.tokenize_eq_iff.2 ⟨hw, ho.splits_tokens Grammar.separating_types hfree⟩
    exact ⟨r.tree, ⟨r, by rw [htok, Grammar.read?_tokens ho hc], rfl⟩, he⟩

/-! Texts that are put together. -/

variable {s u : String} {ss us : List String}

theorem parse_join (hs : parse s = .ok e) (hu : parse u = .ok f) :
    parse (s ++ "|" ++ u) = .ok (unionOf [e, f]) := by
  have hbar : withoutBlanks "|".toList = ['|'] := by decide
  rw [parse_eq_ok_iff_denotes] at hs hu ⊢
  simp only [String.toList_append, withoutBlanks_append, hbar, List.append_assoc]
  exact hs.join hu

theorem parse_enclosed (hs : parse s = .ok e) : parse ("(" ++ s ++ ")") = .ok e := by
  have hopening : withoutBlanks "(".toList = ['('] := by decide
  have hclosing : withoutBlanks ")".toList = [')'] := by decide
  have henclosed := (parse_eq_ok_iff_denotes.1 hs).enclosed.as_expression
  rw [parse_eq_ok_iff_denotes]
  simp only [String.toList_append, withoutBlanks_append, hopening, hclosing]
  exact henclosed

theorem parse_array (hs : parse s = .ok e) : parse ("(" ++ s ++ ")[]") = .ok (.array e) := by
  have hopening : withoutBlanks "(".toList = ['('] := by decide
  have hclosing : withoutBlanks ")[]".toList = [')'] ++ ['[', ']'] := by decide
  have harray := (parse_eq_ok_iff_denotes.1 hs).enclosed.primary.array.as_expression
  rw [parse_eq_ok_iff_denotes]
  simp only [String.toList_append, withoutBlanks_append, hopening, hclosing]
  rwa [← List.append_assoc]

theorem flat_of_map_parse (h : ss.map parse = es.map .ok) : ∀ e ∈ es, e.Flat := by
  intro e he
  have hmem : Except.ok e ∈ ss.map parse := h ▸ List.mem_map_of_mem he
  obtain ⟨s, -, hs⟩ := List.mem_map.1 hmem
  exact flat_of_parse hs

theorem Grouped.parse_eq (h : Grouped ss s) (hss : ss.map parse = es.map .ok) :
    parse s = .ok (unionOf es) := by
  have hflat := flat_of_map_parse hss
  induction h generalizing es with
  | single s =>
    obtain ⟨e, rfl⟩ : ∃ e, es = [e] := by
      apply List.length_eq_one_iff.1
      simpa using (congrArg List.length hss).symm
    rw [(hflat e (List.mem_singleton_self e)).unionOf_singleton]
    exact List.head_eq_of_cons_eq hss
  | joined _ _ ihs ihu =>
    rw [List.map_append] at hss
    obtain ⟨es, fs, rfl, hs, hu⟩ := List.map_eq_append_iff.1 hss.symm
    have hes := flat_of_map_parse hs.symm
    have hfs := flat_of_map_parse hu.symm
    rw [parse_join (ihs hs.symm hes) (ihu hu.symm hfs), unionOf_unionOf hes hfs]
  | enclosed _ ih => exact parse_enclosed (ih hss hflat)

/-- Texts joined with `|` are parsed as the union of what they are parsed as, and an enclosed text
is parsed as without its parentheses, also as the item of an array. So however texts are grouped,
the union is the same: it has the members of all of them in written order, and none of these is a
union. -/
theorem parse_grouped :
    (∀ (ss : List String) (es : List TypeExpression), ss ≠ [] → ss.map parse = es.map .ok →
      parse ("|".intercalate ss) = .ok (unionOf es)) ∧
    (∀ s e, parse s = .ok e →
      parse ("(" ++ s ++ ")") = .ok e ∧ parse ("(" ++ s ++ ")[]") = .ok (.array e)) ∧
    ∀ ss s es, Grouped ss s → ss.map parse = es.map .ok →
      parse s = .ok (unionOf es) ∧ (unionOf es).Flat ∧
        (unionOf es).members = es.flatMap members := by
  refine ⟨?_, ?_, ?_⟩
  · intro ss es hne hss
    exact (grouped_intercalate hne).parse_eq hss
  · intro s e hs
    exact ⟨parse_enclosed hs, parse_array hs⟩
  · intro ss s es hgrouped hss
    have hs := hgrouped.parse_eq hss
    exact ⟨hs, (parse_eq_ok_iff_denotes.1 hs).flat, members_unionOf (flat_of_map_parse hss)⟩

end

/-- `A|B`, `(C|D)[]` and `E` joined, the last two also grouped. -/
theorem parse_grouped_of_unions :
    let name (c : Char) (h : IsName [c] := by decide +kernel) : TypeExpression :=
      .name ⟨[c], h.1, h.2⟩
    let ss := ["A|B", "(C|D)[]", " E "]
    let es := [.union [name 'A', name 'B'], .array (.union [name 'C', name 'D']), name 'E']
    let joined : TypeExpression :=
      .union [name 'A', name 'B', .array (.union [name 'C', name 'D']), name 'E']
    ss.map parse = es.map .ok ∧ parse "A|B|(C|D)[]| E " = .ok joined ∧
      parse "(A|B|((C|D)[]| E ))" = .ok joined ∧
      parse "(A|B)[]" = .ok (.array (.union [name 'A', name 'B'])) := by
  intro name ss es joined
  obtain ⟨hjoined, henclosed, hgrouped⟩ := parse_grouped
  have hss : ss.map parse = es.map .ok := by decide +kernel
  have hright : Grouped ss "(A|B|((C|D)[]| E ))" :=
    .enclosed (.joined (.single "A|B") (.enclosed (.joined (.single "(C|D)[]") (.single " E "))))
  obtain ⟨-, harray⟩ := henclosed "A|B" (.union [name 'A', name 'B']) (by decide +kernel)
  exact ⟨hss, hjoined ss es (by decide) hss, (hgrouped ss _ es hright hss).1, harray⟩

end TypeExpression

end Fixity
