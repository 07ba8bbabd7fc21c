import Fixity.Proofs.Tokenizing
import Mathlib.Data.List.Sort

/-! Splitting at the longest symbols, told by the places at which the pieces of a text stand. A text
without blanks has just one such cut, and scanning finds it. So nothing matters about a list of
symbols but which symbols are in it. -/
namespace Fixity

theorem joinTokens_eq_nil_iff {xs : List Token} : joinTokens xs = [] ↔ xs = [] := by
  cases xs with
  | nil => simp
  | cons x xs => simp [x.chars_ne_nil]

namespace SymbolTable

/-- A stretch of a text: a symbol, or characters between symbols. -/
inductive Piece where
  | symbol (word : List Char)
  | basic (word : List Char)
  deriving DecidableEq

namespace Piece

def word : Piece → List Char
  | symbol w => w
  | basic w => w

def isSymbol : Piece → Bool
  | symbol _ => true
  | basic _ => false

/-- The piece may stand at the start of the text: it is the longest of the symbols that start there,
or no symbol starts at any place inside it. -/
def Fits (symbols : List (List Char)) (text : List Char) : Piece → Prop
  | symbol w => w ∈ symbols ∧ w <+: text ∧ ∀ s ∈ symbols, s <+: text → s.length ≤ w.length
  | basic w => ∀ k < w.length, ∀ s ∈ symbols, s ≠ [] → ¬s <+: text.drop k

end Piece

/-- The pieces make up the text, each fits at its place, and no two basic ones are neighbours. -/
structure IsCut (symbols : List (List Char)) (text : List Char) (pieces : List Piece) : Prop where
  words : pieces.flatMap Piece.word = text
  ne_nil : ∀ p ∈ pieces, p.word ≠ []
  fits : ∀ earlier p later, pieces = earlier ++ p :: later →
    p.Fits symbols (text.drop (earlier.flatMap Piece.word).length)
  separated : pieces.IsChain fun p q => p.isSymbol = true ∨ q.isSymbol = true

variable {symbols : List (List Char)} {text rest w : List Char}

theorem fits_symbol_iff (hw : w ≠ []) :
    (Piece.symbol w).Fits symbols text ↔ (ofList symbols).symbolAt? text = some w := by
  simp only [Piece.Fits, symbolAt?_eq_some_iff, mem_symbols_ofList]
  constructor
  · rintro ⟨hmem, hp, hlongest⟩
    refine ⟨⟨hmem, hw⟩, hp, ?_⟩
    rintro s ⟨hs, -⟩ hsp
    exact List.prefix_of_prefix_length_le hsp hp (hlongest s hs hsp)
  · rintro ⟨⟨hmem, -⟩, hp, hlongest⟩
    refine ⟨hmem, hp, ?_⟩
    intro s hs hsp
    by_cases hnil : s = []
    · simp [hnil]
    · exact (hlongest s ⟨hs, hnil⟩ hsp).length_le

theorem fits_basic_iff :
    (Piece.basic w).Fits symbols (w ++ rest) ↔ (ofList symbols).Silent w rest := by
  simp only [Piece.Fits, Silent, symbolAt?_eq_none_iff, mem_symbols_ofList]
  constructor
  · rintro h u hu ⟨before, rfl⟩ s ⟨hs, hne⟩
    have hlen : before.length < (before ++ u).length := by
      simpa using List.length_pos_iff.2 hu
    simpa using h before.length hlen s hs hne
  · intro h k hk s hs hne
    rw [List.drop_append_of_le_length hk.le]
    exact h (w.drop k) (by simpa using hk) (List.drop_suffix k w) s ⟨hs, hne⟩

theorem isCut_cons_iff {p : Piece} {ps : List Piece} :
    IsCut symbols (p.word ++ rest) (p :: ps) ↔ p.word ≠ [] ∧ p.Fits symbols (p.word ++ rest) ∧
      (∀ q ∈ ps.head?, p.isSymbol = true ∨ q.isSymbol = true) ∧ IsCut symbols rest ps := by
  constructor
  · rintro ⟨hwords, hnil, hfits, hsep⟩
    obtain ⟨hp, hps⟩ := List.forall_mem_cons.1 hnil
    obtain ⟨hnext, hsep⟩ := List.isChain_cons.1 hsep
    refine ⟨hp, by simpa using hfits [] p ps rfl, hnext, ?_, hps, ?_, hsep⟩
    · exact List.append_cancel_left hwords
    · rintro earlier q later rfl
      have hq := hfits (p :: earlier) q later rfl
      rwa [List.flatMap_cons, List.length_append, ← List.drop_drop, List.drop_left] at hq
  · rintro ⟨hp, hfit, hnext, hwords, hps, hfits, hsep⟩
    refine ⟨by simp [hwords], List.forall_mem_cons.2 ⟨hp, hps⟩, ?_,
      List.isChain_cons.2 ⟨hnext, hsep⟩⟩
    intro earlier q later he
    obtain ⟨rfl, hc⟩ | ⟨earlier, rfl, hc⟩ := List.cons_eq_append_iff.1 he
    · obtain ⟨rfl, -⟩ := List.cons.inj hc
      simpa using hfit
    · rw [List.flatMap_cons, List.length_append, ← List.drop_drop, List.drop_left]
      exact hfits earlier q later hc

theorem isCut_nil_iff : IsCut symbols text [] ↔ text = [] := by
  constructor
  · exact fun h => h.words.symm
  · rintro rfl
    exact ⟨rfl, by simp, by simp, .nil⟩

theorem IsCut.fits_head {p : Piece} {ps : List Piece} (h : IsCut symbols text (p :: ps)) :
    p.Fits symbols text := by
  simpa using h.fits [] p ps rfl

theorem IsCut.ne_nil_of_cons {p : Piece} {ps : List Piece} (h : IsCut symbols text (p :: ps)) :
    text ≠ [] := by
  rw [← h.words]
  simp [h.ne_nil p (by simp)]

/-- The first piece tells whether a symbol starts at the start of the text. -/
theorem IsCut.isSymbol_head_iff {ps : List Piece} (h : IsCut symbols text ps) :
    (∀ q ∈ ps.head?, q.isSymbol = true) ↔
      (text ≠ [] → ((ofList symbols).symbolAt? text).isSome) := by
  rcases ps with _ | ⟨w | w, ps⟩
  · simp [isCut_nil_iff.1 h]
  · have hat := (fits_symbol_iff (h.ne_nil (.symbol w) (by simp))).1 h.fits_head
    simp [Piece.isSymbol, hat]
  · have hw := h.ne_nil (.basic w) (by simp)
    have hnone : (ofList symbols).symbolAt? text = none := by
      rw [symbolAt?_eq_none_iff]
      intro s hs
      obtain ⟨hs, hne⟩ := mem_symbols_ofList.1 hs
      exact h.fits_head 0 (List.length_pos_iff.2 hw) s hs hne
    simp [Piece.isSymbol, hnone, h.ne_nil_of_cons]

/-- A cut and the relation by which scanning was described belong together piece by piece. -/
theorem splits_iff_exists_isCut {xs : List Token} : (ofList symbols).Splits xs ↔
    ∃ pieces, IsCut symbols (joinTokens xs) pieces ∧
      pieces.map Piece.word = xs.map Token.chars := by
  constructor
  · intro h
    induction h with
    | nil => exact ⟨[], isCut_nil_iff.2 rfl, rfl⟩
    | @symbol x xs h _ ih =>
      obtain ⟨pieces, hcut, hwords⟩ := ih
      have hfit := (fits_symbol_iff x.chars_ne_nil).2 h
      have hcons := isCut_cons_iff (p := .symbol x.chars).2
        ⟨x.chars_ne_nil, hfit, fun _ _ => .inl rfl, hcut⟩
      exact ⟨.symbol x.chars :: pieces, hcons, by simp [hwords, Piece.word]⟩
    | @basic x xs h hnext _ ih =>
      obtain ⟨pieces, hcut, hwords⟩ := ih
      have hfit : (Piece.basic x.chars).Fits symbols (x.chars ++ joinTokens xs) :=
        fits_basic_iff.2 h
      have hhead := hcut.isSymbol_head_iff.2 fun hne => hnext (mt joinTokens_eq_nil_iff.2 hne)
      have hcons := isCut_cons_iff (p := .basic x.chars).2
        ⟨x.chars_ne_nil, hfit, fun q hq => .inr (hhead q hq), hcut⟩
      exact ⟨.basic x.chars :: pieces, hcons, by simp [hwords, Piece.word]⟩
  · rintro ⟨pieces, hcut, hwords⟩
    induction xs generalizing pieces with
    | nil => exact .nil
    | cons x xs ih =>
      obtain ⟨p, ps, rfl, hp, hps⟩ := List.map_eq_cons_iff.1 hwords
      rw [joinTokens_cons, ← hp, isCut_cons_iff] at hcut
      obtain ⟨-, hfit, hnext, hcut⟩ := hcut
      have hxs := ih ps hcut hps
      cases p with
      | symbol w =>
        obtain rfl : w = x.chars := hp
        exact .symbol ((fits_symbol_iff x.chars_ne_nil).1 hfit) hxs
      | basic w =>
        obtain rfl : w = x.chars := hp
        have hsome := hcut.isSymbol_head_iff.1 fun q hq =>
          (hnext q hq).resolve_left Bool.false_ne_true
        exact .basic (fits_basic_iff.1 hfit) (fun hne => hsome (mt joinTokens_eq_nil_iff.1 hne)) hxs

/-- The words of a cut of a text without blanks are tokens. -/
theorem IsCut.exists_map_chars_eq {pieces : List Piece} (h : IsCut symbols text pieces)
    (hb : ∀ c ∈ text, isBlank c = false) :
    ∃ xs : List Token, xs.map Token.chars = pieces.map Piece.word := by
  have hblank : ∀ p ∈ pieces, ∀ c ∈ p.word, isBlank c = false := by
    intro p hp c hc
    apply hb
    rw [← h.words]
    exact List.mem_flatMap.2 ⟨p, hp, hc⟩
  refine ⟨pieces.attach.map fun p => ⟨p.1.word, h.ne_nil p.1 p.2, hblank p.1 p.2⟩, ?_⟩
  simp

theorem map_chars_tokenize_eq_iff {input : String} {words : List (List Char)} :
    ((ofList symbols).tokenize input).map Token.chars = words ↔
      ∃ pieces, IsCut symbols (withoutBlanks input.toList) pieces ∧
        pieces.map Piece.word = words := by
  constructor
  · rintro rfl
    obtain ⟨hjoin, hsplits⟩ := tokenize_eq_iff.1 (Eq.refl ((ofList symbols).tokenize input))
    rw [← hjoin]
    exact splits_iff_exists_isCut.1 hsplits
  · rintro ⟨pieces, hcut, rfl⟩
    obtain ⟨xs, hxs⟩ := hcut.exists_map_chars_eq fun _ => isBlank_of_mem_withoutBlanks
    have hjoin : joinTokens xs = withoutBlanks input.toList := by
      rw [← hcut.words, joinTokens, List.flatMap_def, hxs, ← List.flatMap_def]
    rw [← hjoin] at hcut
    have hsplits := splits_iff_exists_isCut.2 ⟨pieces, hcut, hxs.symm⟩
    rw [tokenize_eq_iff.2 ⟨hjoin, hsplits⟩, hxs]

/-- The order of a table is determined, so its symbols are all that matters. -/
theorem eq_of_mem_iff {t u : SymbolTable} (h : ∀ s, s ∈ t.symbols ↔ s ∈ u.symbols) : t = u := by
  have hself : ∀ s, before s s = false := fun s => by simp [before]
  have hirrefl : Std.Irrefl fun s t => before s t = true := ⟨fun s => by simp [hself]⟩
  have hantisymm := isWeakOrder_before.antisymm hself
  have hsymbols := List.Pairwise.eq_of_mem_iff t.ordered u.ordered h
  cases t
  cases u
  cases hsymbols
  rfl

theorem ofList_congr {symbols' : List (List Char)}
    (h : ∀ s, s ≠ [] → (s ∈ symbols ↔ s ∈ symbols')) : ofList symbols = ofList symbols' := by
  apply eq_of_mem_iff
  intro s
  rw [mem_symbols_ofList, mem_symbols_ofList, and_comm, and_comm (a := s ∈ symbols')]
  exact and_congr_right (h s)

/-- The tokens of a text are the words of the one cut of the text without its blanks. No more
matters for them and for the table than which symbols there are and which other characters. -/
theorem tokenize_eq_words_of_cut (symbols : List (List Char)) (input : String) :
    (∀ words, ((ofList symbols).tokenize input).map Token.chars = words ↔
      ∃ pieces, IsCut symbols (withoutBlanks input.toList) pieces ∧
        pieces.map Piece.word = words) ∧
    ∀ symbols' : List (List Char), (∀ s, s ≠ [] → (s ∈ symbols ↔ s ∈ symbols')) →
      ofList symbols = ofList symbols' ∧
      ∀ input' : String, withoutBlanks input.toList = withoutBlanks input'.toList →
        (ofList symbols).tokenize input = (ofList symbols').tokenize input' := by
  refine ⟨fun _ => map_chars_tokenize_eq_iff, fun symbols' hsymbols => ?_⟩
  have htable := ofList_congr hsymbols
  refine ⟨htable, fun input' hinput => ?_⟩
  rw [htable, tokenize, hinput, tokenize]

/-- Comparisons with `<`, `<=` and `=`, where the list of symbols has an empty one and one twice. -/
theorem tokenize_eq_words_of_comparisons :
    let symbols : List (List Char) := [['<'], [], ['<', '='], ['='], ['<']]
    let symbols' : List (List Char) := [['='], ['<', '='], ['<']]
    (∀ s, s ≠ [] → (s ∈ symbols ↔ s ∈ symbols')) ∧
      withoutBlanks "a < =b<".toList = withoutBlanks "a<=b <".toList ∧
      (∃ pieces, IsCut symbols (withoutBlanks "a < =b<".toList) pieces ∧
        pieces.map Piece.word = [['a'], ['<', '='], ['b'], ['<']]) ∧
      (ofList symbols).tokenize "a < =b<" = (ofList symbols').tokenize "a<=b <" := by
  intro symbols symbols'
  have hsymbols : ∀ s, s ≠ [] → (s ∈ symbols ↔ s ∈ symbols') := by
    intro s hs
    simp only [symbols, symbols', List.mem_cons, List.not_mem_nil, or_false, hs, false_or]
    tauto
  have hinput : withoutBlanks "a < =b<".toList = withoutBlanks "a<=b <".toList := by decide
  obtain ⟨hwords, hcongr⟩ := tokenize_eq_words_of_cut symbols "a < =b<"
  exact ⟨hsymbols, hinput, (hwords _).1 (by decide +kernel),
    (hcongr symbols' hsymbols).2 "a<=b <" hinput⟩

end SymbolTable

end Fixity
