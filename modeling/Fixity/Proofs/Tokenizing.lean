import Fixity.Vocabulary
import Mathlib.Data.List.Chain

/-! How a text is split. Its tokens are the symbols that scanning meets and the longest runs between
them, inside which no symbol starts. Where no symbol can grow into what is written after it, tokens
that are written one after the other are found again. -/
namespace Fixity.SymbolTable

variable {t : SymbolTable} {text s : List Char}

theorem symbolAt?_eq_none_iff : t.symbolAt? text = none ↔ ∀ s ∈ t.symbols, ¬s <+: text := by
  simp [symbolAt?]

theorem symbolAt?_isSome (hs : s ∈ t.symbols) (h : s <+: text) : (t.symbolAt? text).isSome := by
  rw [← Option.ne_none_iff_isSome]
  exact fun hn => symbolAt?_eq_none_iff.1 hn s hs h

theorem mem_and_prefix_of_symbolAt? (h : t.symbolAt? text = some s) :
    s ∈ t.symbols ∧ s <+: text :=
  ⟨List.mem_of_find?_eq_some h, by simpa using List.find?_some h⟩

@[simp] theorem symbolAt?_nil : t.symbolAt? [] = none := by
  rw [symbolAt?_eq_none_iff]
  exact fun s hs h => t.ne_nil s hs (List.prefix_nil.1 h)

theorem byteCount_append (a b : List Char) : byteCount (a ++ b) = byteCount a + byteCount b := by
  induction a with
  | nil => simp [byteCount]
  | cons c a ih =>
    simp only [byteCount, List.cons_append, List.foldr_cons] at ih ⊢
    omega

theorem eq_or_byteCount_lt_of_isPrefix {u : List Char} (h : s <+: u) :
    s = u ∨ byteCount s < byteCount u := by
  obtain ⟨w, rfl⟩ := h
  cases w with
  | nil => exact .inl (List.append_nil s).symm
  | cons c w =>
    have hpos := c.utf8Size_pos
    rw [byteCount_append]
    simp only [byteCount, List.foldr_cons]
    omega

/-- Of the symbols that start at one place, scanning takes the longest. -/
theorem symbolAt?_eq_some_iff : t.symbolAt? text = some s ↔
    s ∈ t.symbols ∧ s <+: text ∧ ∀ u ∈ t.symbols, u <+: text → u <+: s := by
  have hlongest : ∀ {s}, t.symbolAt? text = some s → ∀ u ∈ t.symbols, u <+: text → u <+: s := by
    intro s h u hu hp
    obtain ⟨hs, earlier, later, hsymbols, hearlier⟩ := List.find?_eq_some_iff_append.1 h
    have hordered := t.ordered
    rw [hsymbols, List.pairwise_append, List.pairwise_cons] at hordered
    rw [hsymbols, List.mem_append, List.mem_cons] at hu
    rcases hu with hu | rfl | hu
    · have hno := hearlier u hu
      rw [List.isPrefixOf_iff_prefix.2 hp] at hno
      cases hno
    · exact List.prefix_rfl
    · have hbefore := before_eq_true_iff.1 (hordered.2.1.1 u hu)
      rcases List.prefix_or_prefix_of_prefix hp (List.isPrefixOf_iff_prefix.1 hs) with hus | hsu
      · exact hus
      · rcases eq_or_byteCount_lt_of_isPrefix hsu with rfl | hlt
        · exact List.prefix_rfl
        · omega
  constructor
  · intro h
    obtain ⟨hs, hp⟩ := mem_and_prefix_of_symbolAt? h
    exact ⟨hs, hp, hlongest h⟩
  · rintro ⟨hs, hp, hall⟩
    obtain ⟨u, hu⟩ := Option.isSome_iff_exists.1 (symbolAt?_isSome hs hp)
    obtain ⟨hmem, hup⟩ := mem_and_prefix_of_symbolAt? hu
    have hlength := (hlongest hu s hs hp).length_le
    rw [hu, (hall u hmem hup).eq_of_length_le hlength]

/-- A symbol is found where it stands alone. -/
theorem symbolAt?_self (hs : s ∈ t.symbols) : t.symbolAt? s = some s :=
  symbolAt?_eq_some_iff.2 ⟨hs, List.prefix_rfl, fun _ _ h => h⟩

/-- What is found is found as well where the text ends sooner. -/
theorem symbolAt?_eq_some_of_isPrefix {start : List Char} (h : t.symbolAt? text = some s)
    (hs : s <+: start) (hp : start <+: text) : t.symbolAt? start = some s := by
  obtain ⟨hmem, -, hlongest⟩ := symbolAt?_eq_some_iff.1 h
  exact symbolAt?_eq_some_iff.2 ⟨hmem, hs, fun u hu hup => hlongest u hu (hup.trans hp)⟩

theorem symbolAt?_eq_none_of_isPrefix {start : List Char} (h : t.symbolAt? text = none)
    (hp : start <+: text) : t.symbolAt? start = none := by
  rw [symbolAt?_eq_none_iff] at h ⊢
  exact fun s hs hsp => h s hs (hsp.trans hp)

/-- No symbol starts inside `b` where `rest` follows it. -/
def Silent (t : SymbolTable) (b rest : List Char) : Prop :=
  ∀ s, s ≠ [] → s <:+ b → t.symbolAt? (s ++ rest) = none

theorem silent_cons {c : Char} {b rest : List Char} :
    t.Silent (c :: b) rest ↔ t.symbolAt? (c :: (b ++ rest)) = none ∧ t.Silent b rest := by
  constructor
  · intro h
    exact ⟨h (c :: b) (by simp) (List.suffix_refl _), fun s hs hb => h s hs (hb.trans (by simp))⟩
  · rintro ⟨hc, hb⟩ s hs h
    rcases List.suffix_cons_iff.1 h with rfl | h
    · exact hc
    · exact hb s hs h

@[simp] theorem silent_nil (t : SymbolTable) (rest : List Char) : t.Silent [] rest :=
  fun _ hs h => absurd (List.suffix_nil.1 h) hs

/-- Some tokens are the symbols and the runs between symbols of the text that they make. -/
inductive Splits (t : SymbolTable) : List Token → Prop where
  | nil : Splits t []
  | symbol {x : Token} {xs : List Token} (h : t.symbolAt? (joinTokens (x :: xs)) = some x.chars)
      (hxs : Splits t xs) : Splits t (x :: xs)
  | basic {x : Token} {xs : List Token} (h : t.Silent x.chars (joinTokens xs))
      (hnext : xs ≠ [] → (t.symbolAt? (joinTokens xs)).isSome) (hxs : Splits t xs) :
      Splits t (x :: xs)

theorem silent_splitBasic (t : SymbolTable) (text : List Char) :
    t.Silent (t.splitBasic text).1 (t.splitBasic text).2 ∧
      ((t.splitBasic text).2 ≠ [] → (t.symbolAt? (t.splitBasic text).2).isSome) := by
  fun_induction splitBasic t text with
  | case1 => simp
  | case2 c rest s h => simp [h]
  | case3 c rest h ih =>
    refine ⟨silent_cons.2 ⟨?_, ih.1⟩, ih.2⟩
    rw [splitBasic_append, h]

theorem splitBasic_of_silent {b rest : List Char} (h : t.Silent b rest)
    (hnext : rest ≠ [] → (t.symbolAt? rest).isSome) : t.splitBasic (b ++ rest) = (b, rest) := by
  induction b with
  | nil =>
    cases rest with
    | nil => rfl
    | cons c rest =>
      obtain ⟨s, hs⟩ := Option.isSome_iff_exists.1 (hnext (by simp))
      simp [splitBasic, hs]
  | cons c b ih =>
    obtain ⟨hc, hb⟩ := silent_cons.1 h
    simp [splitBasic, hc, ih hb]

theorem cut_symbol (h : t.symbolAt? text = some s) :
    t.cut text = s :: t.cut (text.drop s.length) := by
  cases text with
  | nil => simp at h
  | cons c rest =>
    rw [cut]
    split
    · rename_i s' h'
      cases h.symm.trans h'
      rfl
    · rename_i h'
      cases h.symm.trans h'

theorem cut_basic {c : Char} {rest : List Char} (h : t.symbolAt? (c :: rest) = none) :
    t.cut (c :: rest) = (c :: (t.splitBasic rest).1) :: t.cut (t.splitBasic rest).2 := by
  rw [cut]
  split
  · rename_i h'
    cases h.symm.trans h'
  · rfl

theorem Splits.cut_joinTokens {xs : List Token} (h : t.Splits xs) :
    t.cut (joinTokens xs) = xs.map Token.chars := by
  induction h with
  | nil => simp [cut]
  | @symbol x xs h _ ih =>
    rw [cut_symbol h, joinTokens_cons, List.drop_left, ih]
    rfl
  | @basic x xs h hnext _ ih =>
    obtain ⟨c, b, hx⟩ := List.exists_cons_of_ne_nil x.chars_ne_nil
    rw [hx, silent_cons] at h
    have hrest : joinTokens xs ≠ [] → (t.symbolAt? (joinTokens xs)).isSome := by
      intro hne
      apply hnext
      rintro rfl
      exact hne rfl
    rw [joinTokens_cons, hx, List.cons_append, cut_basic h.1, splitBasic_of_silent h.2 hrest, ih,
      List.map_cons, hx]

theorem exists_splits (t : SymbolTable) (text : List Char) (hb : ∀ c ∈ text, isBlank c = false) :
    ∃ xs, joinTokens xs = text ∧ t.Splits xs := by
  induction hn : text.length using Nat.strong_induction_on generalizing text with
  | _ n ih =>
    subst hn
    cases text with
    | nil => exact ⟨[], rfl, .nil⟩
    | cons c rest =>
      cases hs : t.symbolAt? (c :: rest) with
      | some s =>
        obtain ⟨hmem, rest', he⟩ := mem_and_prefix_of_symbolAt? hs
        have hlen : rest'.length < (c :: rest).length := by
          have hpos := List.length_pos_iff.2 (t.ne_nil s hmem)
          rw [← he, List.length_append]
          omega
        rw [← he] at hb
        obtain ⟨hbs, hbrest⟩ := List.forall_mem_append.1 hb
        obtain ⟨xs, rfl, hxs⟩ := ih _ hlen rest' hbrest rfl
        exact ⟨⟨s, t.ne_nil s hmem, hbs⟩ :: xs, he, .symbol (by simpa [he] using hs) hxs⟩
      | none =>
        have happ := t.splitBasic_append rest
        obtain ⟨hsilent, hnext⟩ := t.silent_splitBasic rest
        generalize t.splitBasic rest = split at happ hsilent hnext
        obtain ⟨b, rest'⟩ := split
        subst happ
        have hlen : rest'.length < (c :: (b ++ rest')).length := by
          simp only [List.length_cons, List.length_append]
          omega
        rw [← List.cons_append] at hb
        obtain ⟨hbb, hbrest⟩ := List.forall_mem_append.1 hb
        obtain ⟨xs, rfl, hxs⟩ := ih _ hlen rest' hbrest rfl
        refine ⟨⟨c :: b, by simp, hbb⟩ :: xs, rfl, .basic (silent_cons.2 ⟨hs, hsilent⟩) ?_ hxs⟩
        intro hne
        apply hnext
        cases xs with
        | nil => exact absurd rfl hne
        | cons x xs => simp [x.chars_ne_nil]

/-- The tokens of a text make up the text without its blanks and split it. -/
theorem tokenize_eq_iff {input : String} {xs : List Token} :
    t.tokenize input = xs ↔ joinTokens xs = withoutBlanks input.toList ∧ t.Splits xs := by
  have hof : ∀ {ys}, joinTokens ys = withoutBlanks input.toList → t.Splits ys →
      t.tokenize input = ys := by
    intro ys hjoin hys
    rw [tokenize, ← hjoin, hys.cut_joinTokens, List.filterMap_map]
    simp [Function.comp_def, Except.toOption]
  constructor
  · rintro rfl
    obtain ⟨ys, hjoin, hys⟩ := t.exists_splits (withoutBlanks input.toList) fun _ =>
      isBlank_of_mem_withoutBlanks
    rw [hof hjoin hys]
    exact ⟨hjoin, hys⟩
  · rintro ⟨hjoin, hxs⟩
    exact hof hjoin hxs

/-- No symbol occurs in the text. -/
def Free (t : SymbolTable) (text : List Char) : Prop := t.Silent text []

theorem free_iff : t.Free text ↔ ∀ s ∈ t.symbols, ¬s <:+: text := by
  constructor
  · rintro h s hs ⟨before, after, rfl⟩
    have hsuffix : s ++ after <:+ before ++ s ++ after := by simp
    have hne : s ++ after ≠ [] := by simp [t.ne_nil s hs]
    have hnone := h _ hne hsuffix
    rw [List.append_nil, symbolAt?_eq_none_iff] at hnone
    exact hnone s hs (List.prefix_append s after)
  · intro h u _ hu
    rw [List.append_nil, symbolAt?_eq_none_iff]
    exact fun s hs hp => h s hs (hp.isInfix.trans hu.isInfix)

/-- Each token of a text is a symbol, or no symbol occurs in it. -/
theorem Splits.symbol_or_free {xs : List Token} (h : t.Splits xs) :
    ∀ x ∈ xs, x.chars ∈ t.symbols ∨ t.Free x.chars := by
  induction h with
  | nil => simp
  | symbol h _ ih => exact List.forall_mem_cons.2 ⟨.inl (mem_and_prefix_of_symbolAt? h).1, ih⟩
  | @basic x xs h _ _ ih =>
    refine List.forall_mem_cons.2 ⟨.inr ?_, ih⟩
    intro s hs hx
    rw [List.append_nil]
    exact symbolAt?_eq_none_of_isPrefix (h s hs hx) (List.prefix_append s _)

theorem Splits.symbolAt?_cons {x : Token} {xs : List Token} (h : t.Splits (x :: xs))
    (hsome : (t.symbolAt? (joinTokens (x :: xs))).isSome) :
    t.symbolAt? (joinTokens (x :: xs)) = some x.chars := by
  cases h with
  | symbol h _ => exact h
  | basic h _ _ =>
    rw [joinTokens_cons, h x.chars x.chars_ne_nil List.suffix_rfl] at hsome
    cases hsome

theorem Splits.of_append_right {xs ys : List Token} (h : t.Splits (xs ++ ys)) : t.Splits ys := by
  induction xs with
  | nil => exact h
  | cons x xs ih =>
    cases h with
    | symbol _ h => exact ih h
    | basic _ _ h => exact ih h

/-- Nothing is split in another way because something that follows is left out. -/
theorem Splits.of_append_left {xs ys : List Token} (h : t.Splits (xs ++ ys)) : t.Splits xs := by
  have hleave : ∀ {x : Token} {xs : List Token},
      t.symbolAt? (joinTokens (x :: (xs ++ ys))) = some x.chars →
        t.symbolAt? (joinTokens (x :: xs)) = some x.chars := by
    intro x xs h
    apply symbolAt?_eq_some_of_isPrefix h (List.prefix_append _ _)
    rw [← List.cons_append, joinTokens_append]
    exact List.prefix_append _ _
  induction xs with
  | nil => exact .nil
  | cons x xs ih =>
    rw [List.cons_append] at h
    cases h with
    | symbol h hxs => exact .symbol (hleave h) (ih hxs)
    | basic h hnext hxs =>
      refine .basic ?_ ?_ (ih hxs)
      · intro s hs hx
        apply symbolAt?_eq_none_of_isPrefix (h s hs hx)
        rw [joinTokens_append, ← List.append_assoc]
        exact List.prefix_append _ _
      · intro hne
        obtain ⟨y, xs, rfl⟩ := List.exists_cons_of_ne_nil hne
        rw [hleave (hxs.symbolAt?_cons (hnext (by simp)))]
        rfl

/-- Tables that find the same symbols at all places of a text split it in the same way. -/
theorem Splits.congr {u : SymbolTable} {xs : List Token} (h : t.Splits xs)
    (hat : ∀ rest, rest <:+ joinTokens xs → t.symbolAt? rest = u.symbolAt? rest) :
    u.Splits xs := by
  induction h with
  | nil => exact .nil
  | @symbol x xs h _ ih =>
    rw [hat _ List.suffix_rfl] at h
    exact .symbol h (ih fun rest hrest => hat rest (hrest.trans (List.suffix_append _ _)))
  | @basic x xs h hnext _ ih =>
    have hrests : ∀ rest, rest <:+ joinTokens xs → t.symbolAt? rest = u.symbolAt? rest :=
      fun rest hrest => hat rest (hrest.trans (List.suffix_append _ _))
    refine .basic ?_ ?_ (ih hrests)
    · intro s hs hx
      obtain ⟨before, hbefore⟩ := hx
      have hrest : s ++ joinTokens xs <:+ joinTokens (x :: xs) :=
        ⟨before, by rw [joinTokens_cons, ← hbefore, List.append_assoc]⟩
      rw [← hat _ hrest]
      exact h s hs ⟨before, hbefore⟩
    · rwa [← hrests _ List.suffix_rfl]

theorem symbolAt?_congr {u : SymbolTable}
    (h : ∀ s, s <+: text → (s ∈ t.symbols ↔ s ∈ u.symbols)) :
    t.symbolAt? text = u.symbolAt? text := by
  ext s
  rw [symbolAt?_eq_some_iff, symbolAt?_eq_some_iff]
  constructor
  · rintro ⟨hs, hp, hlongest⟩
    exact ⟨(h s hp).1 hs, hp, fun w hw hwp => hlongest w ((h w hwp).2 hw) hwp⟩
  · rintro ⟨hs, hp, hlongest⟩
    exact ⟨(h s hp).2 hs, hp, fun w hw hwp => hlongest w ((h w hwp).1 hw) hwp⟩

/-- Symbols that do not occur in a text do not matter for its tokens. -/
theorem tokenize_congr {u : SymbolTable} {input : String}
    (h : ∀ s, s <:+: withoutBlanks input.toList → (s ∈ t.symbols ↔ s ∈ u.symbols)) :
    t.tokenize input = u.tokenize input := by
  obtain ⟨hjoin, hsplits⟩ := tokenize_eq_iff.1 (Eq.refl (t.tokenize input))
  refine (tokenize_eq_iff.2 ⟨hjoin, hsplits.congr ?_⟩).symm
  intro rest hrest
  apply symbolAt?_congr
  intro s hs
  exact h s (hs.isInfix.trans (hjoin ▸ hrest.isInfix))

/-- No symbol begins another one, and none begins with a character that continues one. -/
def Separating (t : SymbolTable) : Prop :=
  ∀ s ∈ t.symbols, ∀ u ∈ t.symbols, (s <+: u → s = u) ∧ s.head? ∉ u.tail.map some

instance (t : SymbolTable) : Decidable t.Separating :=
  inferInstanceAs (Decidable (∀ s ∈ t.symbols, ∀ u ∈ t.symbols, _ ∧ _))

theorem Separating.symbolAt?_append (h : t.Separating) (hs : s ∈ t.symbols) (rest : List Char) :
    t.symbolAt? (s ++ rest) = some s := by
  refine symbolAt?_eq_some_iff.2 ⟨hs, List.prefix_append s rest, ?_⟩
  intro u hu hp
  rcases List.prefix_or_prefix_of_prefix hp (List.prefix_append s rest) with hus | hsu
  · exact hus
  · obtain rfl := (h s hs u hu).1 hsu
    exact List.prefix_rfl

/-- A symbol written after a text in which no symbol occurs starts where it is written. -/
theorem Separating.silent (h : t.Separating) (hfree : t.Free text) (hs : s ∈ t.symbols)
    (rest : List Char) : t.Silent text (s ++ rest) := by
  intro b hb hsuffix
  have hnone := hfree b hb hsuffix
  rw [List.append_nil, symbolAt?_eq_none_iff] at hnone
  rw [symbolAt?_eq_none_iff]
  intro u hu hp
  rcases List.prefix_or_prefix_of_prefix hp (List.prefix_append b _) with hub | ⟨w, rfl⟩
  · exact hnone u hu hub
  · have hw : w ≠ [] := by
      rintro rfl
      exact hnone _ hu (by simp)
    obtain ⟨c, w, rfl⟩ := List.exists_cons_of_ne_nil hw
    obtain ⟨d, s, rfl⟩ := List.exists_cons_of_ne_nil (t.ne_nil s hs)
    obtain ⟨e, b, rfl⟩ := List.exists_cons_of_ne_nil hb
    rw [List.prefix_append_right_inj, List.cons_append, List.cons_prefix_cons] at hp
    exact (h _ hs _ hu).2 (by simp [hp.1])

/-- Tokens of which no two neighbours are basic split the text that they make. -/
theorem Separating.splits (h : t.Separating) {xs : List Token}
    (hxs : ∀ x ∈ xs, x.chars ∈ t.symbols ∨ t.Free x.chars)
    (hchain : xs.IsChain fun x y => x.chars ∈ t.symbols ∨ y.chars ∈ t.symbols) :
    t.Splits xs := by
  induction xs with
  | nil => exact .nil
  | cons x xs ih =>
    obtain ⟨hx, hrest⟩ := List.forall_mem_cons.1 hxs
    obtain ⟨hnext, hchain⟩ := List.isChain_cons.1 hchain
    have hsplits := ih hrest hchain
    by_cases hsymbol : x.chars ∈ t.symbols
    · exact .symbol (h.symbolAt?_append hsymbol _) hsplits
    · have hfree := hx.resolve_left hsymbol
      cases xs with
      | nil => exact .basic hfree (by simp) hsplits
      | cons y ys =>
        have hy := (hnext y rfl).resolve_left hsymbol
        exact .basic (h.silent hfree hy _)
          (fun _ => symbolAt?_isSome hy (List.prefix_append _ _)) hsplits

theorem Splits.tokenize_joinTokens {xs : List Token} (h : t.Splits xs) :
    t.tokenize (String.ofList (joinTokens xs)) = xs :=
  tokenize_eq_iff.2 ⟨by simp, h⟩

end Fixity.SymbolTable
