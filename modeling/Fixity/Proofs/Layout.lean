import Fixity.Proofs.RoundTrip
import Fixity.Proofs.TokenRoles

/-! The order of the slots of an element. The number of operands settles how many slots are symbols
and how many are places, and nothing settles their order. With up to one operand every order is one
in which operators are written. With more, the symbols stand between the operands only in the order
that alternates, and all other orders show in what is printed. The postfix machine puts out no
others. -/
namespace Fixity

/-- The slots stand in the order in which an element with `n` operands is written: a value alone, a
unary operator on either side of its place, and any other one with a place at every even index and a
symbol at every odd one. -/
def LaidOut : Nat → List (Option Token) → Prop
  | 0, slots => ∃ s, slots = [some s]
  | 1, slots => ∃ s, slots = [some s, none] ∨ slots = [none, some s]
  | n, slots => slots.length = 2 * n - 1 ∧
      ∀ i (h : i < slots.length), slots[i] = none ↔ i % 2 = 0

/-- Places with one of the symbols between any two of them. -/
def slotsBetween : List Token → List (Option Token)
  | [] => [none]
  | s :: symbols => none :: some s :: slotsBetween symbols

/-- Operands with one of the symbols between any two of them. -/
def tokensBetween : List Token → List (List Token) → List Token
  | s :: symbols, operand :: operands => operand ++ s :: tokensBetween symbols operands
  | _, operands => operands.flatten

section

variable {n : Nat} {slots : List (Option Token)}

/-- Up to their order, slots are so many places and the symbols. -/
theorem perm_places_symbols (slots : List (Option Token)) :
    slots.Perm (List.replicate (slots.count none) none ++ (slots.filterMap id).map some) := by
  induction slots with
  | nil => exact .refl _
  | cons slot slots ih =>
    cases slot with
    | none =>
      rw [List.count_cons_self, List.replicate_succ]
      exact ih.cons none
    | some s =>
      rw [List.count_cons_of_ne (by simp)]
      exact (ih.cons (some s)).trans List.perm_middle.symm

theorem length_slots_eq (slots : List (Option Token)) :
    slots.length = slots.count none + (slots.filterMap id).length := by
  simpa using (perm_places_symbols slots).length_eq

@[simp] theorem symbols_slotsBetween (symbols : List Token) :
    (slotsBetween symbols).filterMap id = symbols := by
  induction symbols with
  | nil => rfl
  | cons s symbols ih => exact congrArg (s :: ·) ih

@[simp] theorem count_slotsBetween (symbols : List Token) :
    (slotsBetween symbols).count none = symbols.length + 1 := by
  induction symbols with
  | nil => rfl
  | cons s symbols ih => simp [slotsBetween, ih]

theorem getElem_slotsBetween (symbols : List Token) (i : Nat)
    (h : i < (slotsBetween symbols).length) :
    (slotsBetween symbols)[i] = none ↔ i % 2 = 0 := by
  induction symbols generalizing i with
  | nil =>
    obtain rfl : i = 0 := by simpa [slotsBetween] using h
    simp [slotsBetween]
  | cons s symbols ih =>
    match i with
    | 0 => simp [slotsBetween]
    | 1 => simp [slotsBetween]
    | i + 2 => simpa [slotsBetween] using ih i (by simpa [slotsBetween] using h)

/-- Slots with places at the even indices alternate. -/
theorem eq_slotsBetween : (slots : List (Option Token)) → slots.length % 2 = 1 →
    (∀ i (h : i < slots.length), slots[i] = none ↔ i % 2 = 0) →
    slots = slotsBetween (slots.filterMap id)
  | [], hodd, _ => by simp at hodd
  | [slot], _, hplace => by
    obtain rfl : slot = none := (hplace 0 (by simp)).2 rfl
    rfl
  | first :: second :: slots, hodd, hplace => by
    obtain rfl : first = none := (hplace 0 (by simp)).2 rfl
    have hsecond : second ≠ none := fun he => absurd ((hplace 1 (by simp)).1 he) (by decide)
    obtain ⟨s, rfl⟩ := Option.ne_none_iff_exists'.1 hsecond
    have hlength : slots.length % 2 = 1 := by
      rw [List.length_cons, List.length_cons] at hodd
      omega
    have hlater : ∀ i (h : i < slots.length), slots[i] = none ↔ i % 2 = 0 := by
      intro i h
      have hi := hplace (i + 2) (by simpa using h)
      rwa [List.getElem_cons_succ, List.getElem_cons_succ, Nat.add_mod_right] at hi
    exact congrArg (fun rest => none :: some s :: rest) (eq_slotsBetween slots hlength hlater)

theorem length_slotsBetween (symbols : List Token) :
    (slotsBetween symbols).length = 2 * symbols.length + 1 := by
  rw [length_slots_eq, symbols_slotsBetween, count_slotsBetween]
  omega

/-- With as many places as symbols and one more, only the order is open. -/
theorem perm_slotsBetween (h : slots.count none = (slots.filterMap id).length + 1) :
    slots.Perm (slotsBetween (slots.filterMap id)) := by
  have hslots := perm_places_symbols slots
  have hbetween := perm_places_symbols (slotsBetween (slots.filterMap id))
  rw [symbols_slotsBetween, count_slotsBetween, ← h] at hbetween
  exact hslots.trans hbetween.symm

theorem laidOut_iff (hn : 2 ≤ n) : LaidOut n slots ↔
    (slots.filterMap id).length + 1 = n ∧ slots = slotsBetween (slots.filterMap id) := by
  obtain ⟨n, rfl⟩ := Nat.exists_eq_add_of_le' hn
  constructor
  · rintro ⟨hlength, hplace⟩
    -- The number of symbols is not given; that of the slots tells it.
    have heq := eq_slotsBetween slots (by omega) hplace
    have hbetween := congrArg List.length heq
    rw [length_slotsBetween] at hbetween
    exact ⟨by omega, heq⟩
  · rintro ⟨hlength, heq⟩
    rw [heq]
    refine ⟨?_, getElem_slotsBetween _⟩
    rw [length_slotsBetween]
    omega

theorem LaidOut.counts (h : LaidOut n slots) :
    slots.length = slotCount n ∧ slots.count none = n := by
  match n with
  | 0 =>
    obtain ⟨s, rfl⟩ := h
    exact ⟨rfl, by simp⟩
  | 1 =>
    obtain ⟨s, rfl | rfl⟩ := h <;> exact ⟨rfl, by simp⟩
  | n + 2 =>
    obtain ⟨hlength, heq⟩ := (laidOut_iff (Nat.le_add_left 2 n)).1 h
    refine ⟨h.1, ?_⟩
    rw [heq, count_slotsBetween, hlength]

end

namespace PostfixToken

theorem length_symbols {t : PostfixToken} (h : 2 ≤ t.argCount) :
    t.symbols.length + 1 = t.argCount := by
  have hlength := length_slots_eq t.slots
  have hcount : slotCount t.argCount = 2 * t.argCount - 1 := by
    obtain ⟨n, hn⟩ := Nat.exists_eq_add_of_le' h
    rw [hn]
    rfl
  rw [t.length_slots, t.count_slots, hcount] at hlength
  rw [symbols]
  omega

/-- The order of one or two slots is no choice. -/
theorem laidOut_of_argCount_le_one {t : PostfixToken} (h : t.argCount ≤ 1) :
    LaidOut t.argCount t.slots := by
  have hlength := t.length_slots
  have hcount := t.count_slots
  obtain h0 | h1 : t.argCount = 0 ∨ t.argCount = 1 := by omega
  · rw [h0] at hlength hcount ⊢
    obtain ⟨slot, hslot⟩ := List.length_eq_one_iff.1 hlength
    rw [hslot] at hcount ⊢
    cases slot with
    | none => simp at hcount
    | some s => exact ⟨s, rfl⟩
  · rw [h1] at hlength hcount ⊢
    obtain ⟨first, second, hslots⟩ := List.length_eq_two.1 hlength
    rw [hslots] at hcount ⊢
    cases first with
    | none =>
      cases second with
      | none => simp at hcount
      | some s => exact ⟨s, .inr rfl⟩
    | some s =>
      cases second with
      | none => exact ⟨s, .inl rfl⟩
      | some s' => simp at hcount

theorem laidOut_iff_slots_eq {t : PostfixToken} (h : 2 ≤ t.argCount) :
    LaidOut t.argCount t.slots ↔ t.slots = slotsBetween t.symbols :=
  (laidOut_iff h).trans (and_iff_right (length_symbols h))

/-- Every element could be laid out by moving its slots. -/
theorem exists_laidOut_perm (t : PostfixToken) :
    ∃ laidOut, LaidOut t.argCount laidOut ∧ t.slots.Perm laidOut := by
  obtain hfew | hmany := Nat.lt_or_ge t.argCount 2
  · exact ⟨t.slots, laidOut_of_argCount_le_one (Nat.le_of_lt_succ hfew), .refl _⟩
  · have hlength := length_symbols hmany
    refine ⟨slotsBetween t.symbols, ?_, perm_slotsBetween ?_⟩
    · rw [laidOut_iff hmany, symbols_slotsBetween]
      exact ⟨hlength, rfl⟩
    · rw [t.count_slots]
      exact hlength.symm

theorem laidOut_ofOperator (op : Operator) :
    LaidOut (ofOperator op).argCount (ofOperator op).slots := by
  rcases op with ⟨symbol, _, _, _ | (_ | _), _, _⟩
  · exact (laidOut_iff (Nat.le_refl 2)).2 ⟨rfl, rfl⟩
  · exact ⟨symbol, .inl rfl⟩
  · exact ⟨symbol, .inr rfl⟩

theorem isBinary_iff (t : PostfixToken) : t.isBinary = true ↔ ∃ s,
    t.slots = [none, some s, none] ∨ t.slots = [some s, none, none] ∨
      t.slots = [none, none, some s] := by
  have hlength := t.length_slots
  have hcount := t.count_slots
  rw [isBinary, beq_iff_eq]
  constructor
  · intro h
    rw [h] at hlength hcount
    obtain ⟨x, y, z, hslots⟩ := List.length_eq_three.1 hlength
    rw [hslots] at hcount ⊢
    cases x <;> cases y <;> cases z <;> simp_all
  · rintro ⟨s, h | h | h⟩ <;> simp [← hcount, h]

variable {n : UInt64} {slots : List (Option Token)} {precedence : Int32}
  {associativity : Associativity}

theorem ofSlots_eq_ok_iff {t : PostfixToken} : ofSlots n slots precedence associativity = .ok t ↔
    slots.length < UInt64.size ∧ t.argCount = n.toNat ∧ t.slots = slots ∧
      t.precedence = precedence ∧ t.associativity = associativity := by
  constructor
  · intro h
    simp only [ofSlots] at h
    split at h
    · rename_i hlength
      split at h
      · cases h
        exact ⟨hlength ▸ Nat.mod_lt _ (by decide), rfl, rfl, rfl, rfl⟩
      · cases h
    · cases h
  · rcases t with ⟨argCount, slots, precedence, associativity, hlength, hcount⟩
    rintro ⟨hlt, rfl, rfl, rfl, rfl⟩
    have hexpected : slots.length = slotCount n.toNat % UInt64.size := by
      rw [← hlength, Nat.mod_eq_of_lt hlt]
    simp only [ofSlots, dif_pos hexpected, dif_pos hcount]

/-- Counting lets every order pass. -/
theorem exists_ofSlots_eq_ok_iff : (∃ t, ofSlots n slots precedence associativity = .ok t) ↔
    slots.length < UInt64.size ∧ ∃ laidOut, LaidOut n.toNat laidOut ∧ slots.Perm laidOut := by
  constructor
  · rintro ⟨t, h⟩
    obtain ⟨hlt, hn, rfl, -, -⟩ := ofSlots_eq_ok_iff.1 h
    exact ⟨hlt, hn ▸ t.exists_laidOut_perm⟩
  · rintro ⟨hlt, laidOut, h, hperm⟩
    obtain ⟨hlength, hcount⟩ := h.counts
    let t : PostfixToken := ⟨n.toNat, slots, precedence, associativity,
      hperm.length_eq.trans hlength, (hperm.count_eq none).trans hcount⟩
    exact ⟨t, ofSlots_eq_ok_iff.2 ⟨hlt, rfl, rfl, rfl, rfl⟩⟩

theorem fillSlots_slotsBetween {symbols : List Token} {operands : List (List Token)}
    (h : operands.length = symbols.length + 1) :
    fillSlots (slotsBetween symbols) operands = tokensBetween symbols operands := by
  induction symbols generalizing operands with
  | nil =>
    obtain ⟨operand, rfl⟩ := List.length_eq_one_iff.1 h
    rfl
  | cons s symbols ih =>
    obtain ⟨operand, operands, rfl⟩ := List.exists_cons_of_length_eq_add_one h
    have hrest := ih (Nat.succ.inj h)
    rw [slotsBetween, fillSlots, fillSlots, hrest, tokensBetween]

theorem fillSlots_replicate (slots : List (Option Token)) (x : Token) :
    fillSlots slots (List.replicate (slots.count none) [x]) =
      slots.map fun slot => slot.getD x := by
  induction slots with
  | nil => rfl
  | cons slot slots ih =>
    cases slot with
    | none => simp [List.replicate_succ, fillSlots, ih]
    | some s => simp [fillSlots, ih]

end PostfixToken

/-- No text starts with both of the tokens. -/
theorem Token.exists_append_ne (s : Token) :
    ∃ x : Token, ∀ rest rest', x.chars ++ rest ≠ s.chars ++ rest' := by
  obtain ⟨c, chars, hchars⟩ := List.exists_cons_of_ne_nil s.chars_ne_nil
  by_cases hc : c = 'a'
  · exact ⟨.literal ['b'], by simp [literal, hchars, hc]⟩
  · exact ⟨.literal ['a'], by simp [literal, hchars, Ne.symm hc]⟩

/-- What is printed with one token for every operand shows the order of the slots, if that token may
be any. -/
theorem slots_eq_of_texts_eq {slots slots' : List (Option Token)}
    (hsymbols : slots.filterMap id = slots'.filterMap id) (hlength : slots.length = slots'.length)
    (h : ∀ x : Token, joinTokens (slots.map fun slot => slot.getD x) =
      joinTokens (slots'.map fun slot => slot.getD x)) : slots = slots' := by
  induction slots generalizing slots' with
  | nil => exact (List.length_eq_zero_iff.1 hlength.symm).symm
  | cons slot slots ih =>
    obtain ⟨slot', slots', rfl⟩ := List.exists_cons_of_length_eq_add_one hlength.symm
    simp only [List.map_cons, joinTokens_cons] at h
    have hrest := Nat.succ.inj hlength
    -- Where the orders first differ, one text goes on with a symbol; the token is chosen unlike it.
    cases slot with
    | none =>
      cases slot' with
      | none => exact congrArg _ (ih hsymbols hrest fun x => List.append_cancel_left (h x))
      | some s =>
        obtain ⟨x, hx⟩ := s.exists_append_ne
        exact absurd (h x) (hx _ _)
    | some s =>
      cases slot' with
      | none =>
        obtain ⟨x, hx⟩ := s.exists_append_ne
        exact absurd (h x).symm (hx _ _)
      | some s' =>
        obtain ⟨rfl, hlater⟩ := List.cons.inj hsymbols
        exact congrArg _ (ih hlater hrest fun x => List.append_cancel_left (h x))

namespace Tree

theorem length_writtenOperands (op : PostfixToken) (isFirst : Bool) (ts : List Tree) :
    (writtenOperands op isFirst ts).length = ts.length := by
  induction ts generalizing isFirst with
  | nil => rfl
  | cons t ts ih => simp [writtenOperands, ih]

theorem writtenOperands_replicate (op : PostfixToken) (isFirst : Bool) (n : Nat) (x : Token) :
    writtenOperands op isFirst (List.replicate n (.value x)) = List.replicate n [x] := by
  induction n generalizing isFirst with
  | zero => rfl
  | succ n ih => simp [List.replicate_succ, writtenOperands, needsParentheses, written, ih]

end Tree

namespace PostfixToken

/-- The tokens of the operator with one of its symbols between any two of the operands. -/
def writtenBetween (t : PostfixToken) (children : List Tree) : List Token :=
  tokensBetween t.symbols (Tree.writtenOperands t t.startsWithOperand children)

variable {t : PostfixToken}

theorem written_eq_of_laidOut {children : List Tree} (h : 2 ≤ t.argCount)
    (hlaid : LaidOut t.argCount t.slots) (hlength : children.length = t.argCount) :
    (Tree.node t children).written = t.writtenBetween children := by
  rw [Tree.written, fill, (laidOut_iff_slots_eq h).1 hlaid, fillSlots_slotsBetween, writtenBetween]
  rw [Tree.length_writtenOperands, hlength, length_symbols h]

theorem written_values (t : PostfixToken) (x : Token) :
    (Tree.node t (List.replicate t.argCount (.value x))).written =
      t.slots.map fun slot => slot.getD x := by
  rw [Tree.written, fill, Tree.writtenOperands_replicate, ← fillSlots_replicate, t.count_slots]

theorem writtenBetween_values (h : 2 ≤ t.argCount) (x : Token) :
    t.writtenBetween (List.replicate t.argCount (.value x)) =
      (slotsBetween t.symbols).map fun slot => slot.getD x := by
  have hlength : (List.replicate t.argCount [x]).length = t.symbols.length + 1 := by
    rw [List.length_replicate, length_symbols h]
  rw [writtenBetween, Tree.writtenOperands_replicate, ← fillSlots_slotsBetween hlength,
    ← fillSlots_replicate, count_slotsBetween, length_symbols h]

/-- The symbols of an operator are printed between its operands, whatever these are, just if it is
laid out. -/
theorem laidOut_iff_text (h : 2 ≤ t.argCount) : LaidOut t.argCount t.slots ↔
    ∀ children tree, Tree.ofOperator t children = .ok tree →
      tree.text.toList = joinTokens (t.writtenBetween children) := by
  constructor
  · intro hlaid children tree htree
    obtain ⟨-, hlength, rfl⟩ := Tree.ofOperator_eq_ok_iff.1 htree
    rw [Tree.toList_text, written_eq_of_laidOut h hlaid hlength]
  · intro htext
    rw [laidOut_iff_slots_eq h]
    have hsymbols : t.slots.filterMap id = (slotsBetween t.symbols).filterMap id :=
      (symbols_slotsBetween _).symm
    have hlength : t.slots.length = (slotsBetween t.symbols).length := by
      rw [length_slots_eq, length_slots_eq, hsymbols, t.count_slots, count_slotsBetween,
        length_symbols h]
    refine slots_eq_of_texts_eq hsymbols hlength fun x => ?_
    have htree : Tree.ofOperator t (List.replicate t.argCount (.value x)) =
        .ok (.node t (List.replicate t.argCount (.value x))) :=
      Tree.ofOperator_eq_ok_iff.2 ⟨by omega, List.length_replicate, rfl⟩
    rw [← written_values, ← writtenBetween_values h, ← Tree.toList_text]
    exact htext _ _ htree

end PostfixToken

/-- The postfix machine puts out nothing but values and operators that are laid out. -/
theorem Vocabulary.laidOut_of_shuntTokens {v : Vocabulary} {ts : List Token}
    {sequence : List PostfixToken} (h : v.shuntTokens ts = .ok sequence) {t : PostfixToken}
    (ht : t ∈ sequence) : LaidOut t.argCount t.slots := by
  obtain hfew | hmany := Nat.lt_or_ge t.argCount 2
  · exact PostfixToken.laidOut_of_argCount_le_one (Nat.le_of_lt_succ hfew)
  · obtain ⟨ops, -, hperm⟩ := Shunting.operators_of_run (shuntTokens_eq_ok_iff.1 h)
    have hmem : t ∈ sequence.filter fun e => !e.isValue := by
      refine List.mem_filter.2 ⟨ht, ?_⟩
      rw [PostfixToken.isValue, beq_eq_false_iff_ne.2 (by omega)]
      rfl
    obtain ⟨op, -, rfl⟩ := List.mem_map.1 (hperm.mem_iff.1 hmem)
    exact PostfixToken.laidOut_ofOperator op

namespace PostfixToken

/-- An element is made of the slots that belong to its number of operands in any order, as long as
their number is a 64-bit word. They are in the order in which it is written just if there is one
operand at most or the symbols are printed between the operands, whatever these are. So a binary
operator need not be written like one. What the postfix machine puts out always is in order. -/
theorem ofSlots_takes_any_order (n : UInt64) (slots : List (Option Token)) (precedence : Int32)
    (associativity : Associativity) :
    ((∃ t, ofSlots n slots precedence associativity = .ok t) ↔
      slots.length < UInt64.size ∧ ∃ laidOut, LaidOut n.toNat laidOut ∧ slots.Perm laidOut) ∧
    ∀ t, ofSlots n slots precedence associativity = .ok t →
      t.argCount = n.toNat ∧ t.slots = slots ∧
      (LaidOut n.toNat slots ↔ n.toNat ≤ 1 ∨
        ∀ children tree, Tree.ofOperator t children = .ok tree →
          tree.text.toList = joinTokens (t.writtenBetween children)) ∧
      (t.isBinary = true ↔ ∃ s, slots = [none, some s, none] ∨ slots = [some s, none, none] ∨
        slots = [none, none, some s]) ∧
      ∀ (v : Vocabulary) (ts : List Token) (sequence : List PostfixToken),
        v.shuntTokens ts = .ok sequence → t ∈ sequence → LaidOut n.toNat slots := by
  refine ⟨exists_ofSlots_eq_ok_iff, ?_⟩
  intro t h
  obtain ⟨-, hn, rfl, -, -⟩ := ofSlots_eq_ok_iff.1 h
  rw [← hn]
  refine ⟨rfl, rfl, ?_, isBinary_iff t, fun _ _ _ hsequence ht =>
    Vocabulary.laidOut_of_shuntTokens hsequence ht⟩
  obtain hfew | hmany := Nat.lt_or_ge t.argCount 2
  · have hone := Nat.le_of_lt_succ hfew
    exact iff_of_true (laidOut_of_argCount_le_one hone) (.inl hone)
  · rw [laidOut_iff_text hmany, or_iff_right (Nat.not_le.2 hmany)]

/-- `a?b:c` is printed from slots that alternate. With the first two of them exchanged there still
is an element, which prints `?ab:c`. -/
theorem ofSlots_takes_any_order_of_choice :
    let a : Token := .literal ['a']
    let b : Token := .literal ['b']
    let c : Token := .literal ['c']
    let question : Token := .literal ['?']
    let colon : Token := .literal [':']
    let slots : List (Option Token) := [none, some question, none, some colon, none]
    let exchanged : List (Option Token) := [some question, none, none, some colon, none]
    let choice : PostfixToken := ⟨3, slots, 1, .right, rfl, rfl⟩
    let other : PostfixToken := ⟨3, exchanged, 1, .right, rfl, rfl⟩
    let operands : List Tree := [.value a, .value b, .value c]
    ofSlots 3 slots 1 .right = .ok choice ∧ LaidOut 3 slots ∧
      Tree.ofOperator choice operands = .ok (.node choice operands) ∧
      (Tree.node choice operands).text.toList = joinTokens [a, question, b, colon, c] ∧
      slots.Perm exchanged ∧ (∃ t, ofSlots 3 exchanged 1 .right = .ok t) ∧
      ofSlots 3 exchanged 1 .right = .ok other ∧
      (Tree.node other operands).text.toList = joinTokens [question, a, b, colon, c] ∧
      ¬LaidOut 3 exchanged := by
  intro a b c question colon slots exchanged choice other operands
  have hchoice : ofSlots 3 slots 1 .right = .ok choice := by decide
  have hother : ofSlots 3 exchanged 1 .right = .ok other := by decide
  have htree : ∀ t : PostfixToken, t.argCount = 3 →
      Tree.ofOperator t operands = .ok (.node t operands) := fun t ht =>
    Tree.ofOperator_eq_ok_iff.2 ⟨by rw [ht]; decide, ht.symm, rfl⟩
  have hlaid : LaidOut 3 slots := (laidOut_iff (by decide)).2 ⟨rfl, rfl⟩
  have hperm : slots.Perm exchanged := .swap _ _ _
  have htext : (Tree.node other operands).text.toList =
      joinTokens [question, a, b, colon, c] := by decide
  obtain ⟨-, hof⟩ := ofSlots_takes_any_order 3 slots 1 .right
  obtain ⟨-, -, hprints, -, -⟩ := hof choice hchoice
  obtain ⟨hexists, hof'⟩ := ofSlots_takes_any_order 3 exchanged 1 .right
  obtain ⟨-, -, hprints', -, -⟩ := hof' other hother
  refine ⟨hchoice, hlaid, htree choice rfl, ?_, hperm, ?_, hother, htext, ?_⟩
  · exact (hprints.1 hlaid).resolve_left (by decide) operands _ (htree choice rfl)
  · exact hexists.2 ⟨by decide, slots, hlaid, hperm.symm⟩
  · intro h
    have hbetween := (hprints'.1 h).resolve_left (by decide) operands _ (htree other rfl)
    exact absurd (htext.symm.trans hbetween) (by decide)

/-- A symbol before both operands passes for a binary operator. -/
theorem not_laidOut_of_symbol_first :
    let x : Token := .literal ['x']
    let slots : List (Option Token) := [some x, none, none]
    let t : PostfixToken := ⟨2, slots, 0, .left, rfl, rfl⟩
    let operands : List Tree := [.value (.literal ['a']), .value (.literal ['b'])]
    ofSlots 2 slots 0 .left = .ok t ∧ ¬LaidOut 2 slots ∧ t.isBinary = true ∧
      Tree.ofOperator t operands = .ok (.node t operands) ∧
      (Tree.node t operands).text = "xab" ∧
      ¬∀ (n : UInt64) (slots : List (Option Token)) (precedence : Int32)
        (associativity : Associativity),
        (∃ t, ofSlots n slots precedence associativity = .ok t) ↔ LaidOut n.toNat slots := by
  intro x slots t operands
  have hok : ofSlots 2 slots 0 .left = .ok t := by decide
  have hlaid : ¬LaidOut 2 slots := by
    intro h
    cases (h.2 0 (by decide)).2 rfl
  refine ⟨hok, hlaid, rfl, by decide, by decide, ?_⟩
  intro h
  exact hlaid ((h 2 slots 0 .left).1 ⟨t, hok⟩)

end PostfixToken

end Fixity
