import Mathlib.Data.List.Basic
import Mathlib.Data.List.Infix
import Mathlib.Data.List.Lex
import Mathlib.Data.List.Perm.Basic
import Mathlib.Order.Lattice

/-!
# Replacing all occurrences of words

`replaceAll old new` replaces the occurrences of one word from left to right,
none overlapping.  A rule replaces the first letter of a word and keeps the
others.  Where the first letters, old and new, occur in no tail of a rule,
applying the rules one after the other changes each letter on its own, by the
letters behind it (`foldl_replaceAll`), so their order does not matter
(`rewrite_perm`), a second application changes nothing (`rewrite_rewrite_self`),
and a letter that is in no rule cuts a text into independent parts
(`rewrite_append_cons`).
-/

namespace Bright.Lib

variable {α : Type*} [DecidableEq α]

/-- `replaceAll` with the number of letters of the last occurrence that are
still to be skipped. -/
def replaceFrom (old new : List α) : ℕ → List α → List α
  | _, [] => []
  | skip + 1, _ :: rest => replaceFrom old new skip rest
  | 0, letter :: rest =>
      if old.isPrefixOf (letter :: rest) then
        new ++ replaceFrom old new (old.length - 1) rest
      else
        letter :: replaceFrom old new 0 rest

/-- Replace all occurrences of a word that is not empty. -/
def replaceAll (old new text : List α) : List α := replaceFrom old new 0 text

/-- Replace the letter `source` in front of `tail` by `target`. -/
structure Rule (α : Type*) where
  source : α
  target : α
  tail : List α
  deriving DecidableEq

namespace Rule

def old (rule : Rule α) : List α := rule.source :: rule.tail

def new (rule : Rule α) : List α := rule.target :: rule.tail

/-- What becomes of a letter in front of `rest`. -/
def step (rest : List α) (letter : α) (rule : Rule α) : α :=
  if letter = rule.source ∧ rule.tail.isPrefixOf rest then rule.target
  else letter

end Rule

/-- Change every letter by the rules and the letters behind it. -/
def rewrite (rules : List (Rule α)) : List α → List α
  | [] => []
  | letter :: rest =>
      rules.foldl (Rule.step rest) letter :: rewrite rules rest

/-- The first letters of the rules stay clear of the tails, no new letter is an
old one, and rules for the same letter agree. -/
structure Independent (rules : List (Rule α)) : Prop where
  source_notMem : ∀ rule ∈ rules, ∀ other ∈ rules, rule.source ∉ other.tail
  target_notMem : ∀ rule ∈ rules, ∀ other ∈ rules, rule.target ∉ other.tail
  target_ne : ∀ rule ∈ rules, ∀ other ∈ rules, rule.target ≠ other.source
  target_eq : ∀ rule ∈ rules, ∀ other ∈ rules,
    rule.source = other.source → rule.target = other.target

variable {rules other : List (Rule α)} {rule : Rule α} {text : List α}

@[simp]
theorem length_rewrite (rules : List (Rule α)) (text : List α) :
    (rewrite rules text).length = text.length := by
  induction text with
  | nil => rfl
  | cons letter rest inductionHypothesis =>
      rw [rewrite, List.length_cons, List.length_cons, inductionHypothesis]

@[simp]
theorem rewrite_nil_rules (text : List α) : rewrite [] text = text := by
  induction text with
  | nil => rfl
  | cons letter rest inductionHypothesis =>
      rw [rewrite, inductionHypothesis]
      rfl

/-! ### One letter -/

/-- A letter stays or becomes the target of a rule for it. -/
theorem foldl_step_cases (rules : List (Rule α)) (rest : List α) (letter : α) :
    rules.foldl (Rule.step rest) letter = letter ∨
      ∃ rule ∈ rules, rules.foldl (Rule.step rest) letter = rule.target := by
  induction rules generalizing letter with
  | nil => exact Or.inl rfl
  | cons rule rules inductionHypothesis =>
      rw [List.foldl_cons]
      rcases inductionHypothesis (rule.step rest letter) with same | changed
      · rw [same, Rule.step]
        split_ifs with applies
        · exact Or.inr ⟨rule, List.mem_cons_self, rfl⟩
        · exact Or.inl rfl
      · obtain ⟨later, member, becomes⟩ := changed
        exact Or.inr ⟨later, List.mem_cons_of_mem rule member, becomes⟩

/-- A letter that each rule leaves alone stays. -/
theorem foldl_step_of_stays {letter : α} {rest : List α}
    (stays : ∀ rule ∈ rules, rule.step rest letter = letter) :
    rules.foldl (Rule.step rest) letter = letter := by
  induction rules with
  | nil => rfl
  | cons rule rules inductionHypothesis =>
      obtain ⟨first, later⟩ := List.forall_mem_cons.mp stays
      rw [List.foldl_cons, first, inductionHypothesis later]

theorem step_of_ne {letter : α} (noRule : letter ≠ rule.source) (rest : List α) :
    rule.step rest letter = letter :=
  if_neg fun applies => noRule applies.1

/-- A letter for which there is no rule stays. -/
theorem foldl_step_of_ne {letter : α}
    (noRule : ∀ rule ∈ rules, letter ≠ rule.source) (rest : List α) :
    rules.foldl (Rule.step rest) letter = letter :=
  foldl_step_of_stays fun rule member => step_of_ne (noRule rule member) rest

/-- Letters that no rule reads or writes stay where they are. -/
theorem mem_rewrite_iff {letter : α}
    (notSource : ∀ rule ∈ rules, letter ≠ rule.source)
    (notTarget : ∀ rule ∈ rules, letter ≠ rule.target) :
    letter ∈ rewrite rules text ↔ letter ∈ text := by
  induction text with
  | nil => exact Iff.rfl
  | cons first rest inductionHypothesis =>
      have sameFirst :
          letter = rules.foldl (Rule.step rest) first ↔ letter = first := by
        rcases foldl_step_cases rules rest first with same | changed
        · rw [same]
        · obtain ⟨rule, member, becomes⟩ := changed
          constructor
          · intro equal
            exact absurd (equal.trans becomes) (notTarget rule member)
          · intro equal
            rw [← equal, foldl_step_of_ne notSource]
      rw [rewrite, List.mem_cons, List.mem_cons, sameFirst, inductionHypothesis]

/-- Rewriting by other rules is not seen by the tails. -/
theorem isPrefixOf_rewrite {tail : List α}
    (sourceFresh : ∀ rule ∈ rules, rule.source ∉ tail)
    (targetFresh : ∀ rule ∈ rules, rule.target ∉ tail) (text : List α) :
    tail.isPrefixOf (rewrite rules text) = tail.isPrefixOf text := by
  induction tail generalizing text with
  | nil => rw [List.isPrefixOf_nil_left, List.isPrefixOf_nil_left]
  | cons first tail inductionHypothesis =>
      cases text with
      | nil => rfl
      | cons letter rest =>
          have later := inductionHypothesis
            (fun rule member inTail =>
              sourceFresh rule member (List.mem_cons_of_mem first inTail))
            (fun rule member inTail =>
              targetFresh rule member (List.mem_cons_of_mem first inTail)) rest
          have sameTest :
              (first == rules.foldl (Rule.step rest) letter) =
                (first == letter) := by
            rcases foldl_step_cases rules rest letter with same | changed
            · rw [same]
            · obtain ⟨rule, member, becomes⟩ := changed
              have notTarget : first ≠ rule.target := fun equal =>
                targetFresh rule member (equal ▸ List.mem_cons_self)
              have notLetter : first ≠ letter := by
                intro equal
                have noRule : ∀ source ∈ rules, letter ≠ source.source :=
                  fun source sourceMember same =>
                    sourceFresh source sourceMember
                      (equal.trans same ▸ List.mem_cons_self)
                have stays := foldl_step_of_ne noRule rest
                exact notTarget (equal.trans (stays.symm.trans becomes))
              rw [becomes, beq_false_of_ne notTarget, beq_false_of_ne notLetter]
          rw [rewrite, List.isPrefixOf_cons_cons, List.isPrefixOf_cons_cons, sameTest,
            later]

/-! ### The order of the rules -/

omit [DecidableEq α] in
theorem Independent.mono (independent : Independent rules)
    (subset : ∀ rule ∈ other, rule ∈ rules) : Independent other where
  source_notMem := fun first member second secondMember =>
    independent.source_notMem first (subset first member) second
      (subset second secondMember)
  target_notMem := fun first member second secondMember =>
    independent.target_notMem first (subset first member) second
      (subset second secondMember)
  target_ne := fun first member second secondMember =>
    independent.target_ne first (subset first member) second
      (subset second secondMember)
  target_eq := fun first member second secondMember =>
    independent.target_eq first (subset first member) second
      (subset second secondMember)

/-- Two rules can be tried in either order. -/
theorem step_comm (independent : Independent rules) {first second : Rule α}
    (member : first ∈ rules) (secondMember : second ∈ rules) (rest : List α)
    (letter : α) :
    second.step rest (first.step rest letter) =
      first.step rest (second.step rest letter) := by
  have firstStays := step_of_ne
    (independent.target_ne first member second secondMember) rest
  have secondStays := step_of_ne
    (independent.target_ne second secondMember first member) rest
  by_cases applies : letter = first.source ∧ first.tail.isPrefixOf rest
  · have becomes : first.step rest letter = first.target := if_pos applies
    by_cases secondApplies :
        letter = second.source ∧ second.tail.isPrefixOf rest
    · have secondBecomes : second.step rest letter = second.target :=
        if_pos secondApplies
      rw [becomes, secondBecomes, firstStays, secondStays]
      exact independent.target_eq first member second secondMember
        (applies.1.symm.trans secondApplies.1)
    · have stays : second.step rest letter = letter := if_neg secondApplies
      rw [becomes, stays, firstStays, becomes]
  · have stays : first.step rest letter = letter := if_neg applies
    rw [stays]
    by_cases secondApplies :
        letter = second.source ∧ second.tail.isPrefixOf rest
    · have secondBecomes : second.step rest letter = second.target :=
        if_pos secondApplies
      rw [secondBecomes, secondStays]
    · have secondStaysToo : second.step rest letter = letter :=
        if_neg secondApplies
      rw [secondStaysToo, stays]

/-- The letters of a text are changed independently of the order of the rules. -/
theorem rewrite_perm (independent : Independent rules)
    (permuted : other.Perm rules) (text : List α) :
    rewrite other text = rewrite rules text := by
  induction text with
  | nil => rfl
  | cons letter rest inductionHypothesis =>
      have sameLetter : other.foldl (Rule.step rest) letter =
          rules.foldl (Rule.step rest) letter :=
        permuted.foldl_eq' (fun first member second secondMember letter =>
          step_comm independent (permuted.mem_iff.mp member)
            (permuted.mem_iff.mp secondMember) rest letter) letter
      rw [rewrite, rewrite, sameLetter, inductionHypothesis]

theorem rewrite_rewrite (independent : Independent (rules ++ other))
    (text : List α) :
    rewrite other (rewrite rules text) = rewrite (rules ++ other) text := by
  induction text with
  | nil => rfl
  | cons letter rest inductionHypothesis =>
      have sameStep : ∀ letter, ∀ rule ∈ other,
          rule.step (rewrite rules rest) letter = rule.step rest letter := by
        intro letter rule member
        have inBoth := List.mem_append_right rules member
        have sameTest := isPrefixOf_rewrite
          (fun source sourceMember => independent.source_notMem source
            (List.mem_append_left other sourceMember) rule inBoth)
          (fun target targetMember => independent.target_notMem target
            (List.mem_append_left other targetMember) rule inBoth) rest
        rw [Rule.step, Rule.step, sameTest]
      rw [rewrite, rewrite, rewrite, List.foldl_append, inductionHypothesis,
        List.foldl_ext _ _ _ sameStep]

/-- A second application changes nothing. -/
theorem rewrite_rewrite_self (independent : Independent rules)
    (text : List α) :
    rewrite rules (rewrite rules text) = rewrite rules text := by
  have both : Independent (rules ++ rules) :=
    independent.mono fun rule member => by
      rwa [List.mem_append, or_self] at member
  rw [rewrite_rewrite both]
  induction text with
  | nil => rfl
  | cons letter rest inductionHypothesis =>
      have settled :
          rules.foldl (Rule.step rest) (rules.foldl (Rule.step rest) letter) =
            rules.foldl (Rule.step rest) letter := by
        rcases foldl_step_cases rules rest letter with same | changed
        · rw [same, same]
        · obtain ⟨rule, member, becomes⟩ := changed
          rw [becomes]
          exact foldl_step_of_ne
            (fun later laterMember =>
              independent.target_ne rule member later laterMember) rest
      rw [rewrite, rewrite, List.foldl_append, settled, inductionHypothesis]

/-! ### Replacing occurrences -/

/-- Letters without a rule are copied. -/
theorem rewrite_append_of_notMem {word : List α}
    (noRule : ∀ letter ∈ word, ∀ rule ∈ rules, letter ≠ rule.source)
    (rest : List α) : rewrite rules (word ++ rest) = word ++ rewrite rules rest := by
  induction word with
  | nil => rfl
  | cons letter word inductionHypothesis =>
      obtain ⟨first, later⟩ := List.forall_mem_cons.mp noRule
      rw [List.cons_append, rewrite, foldl_step_of_ne first,
        inductionHypothesis later, List.cons_append]

/-- The letters that are skipped are the tail of the occurrence just found. -/
private theorem replaceFrom_eq_rewrite (fresh : rule.source ∉ rule.tail)
    (skip : ℕ) (text : List α) :
    replaceFrom rule.old rule.new skip text = rewrite [rule] (text.drop skip) := by
  induction text generalizing skip with
  | nil =>
      rw [List.drop_nil]
      cases skip with
      | zero => rfl
      | succ skip => rfl
  | cons letter rest inductionHypothesis =>
      cases skip with
      | succ skip =>
          rw [replaceFrom, List.drop_succ_cons, inductionHypothesis]
      | zero =>
          rw [replaceFrom, inductionHypothesis, inductionHypothesis,
            List.drop_zero, List.drop_zero]
          split_ifs with occurs
          · rw [Rule.old, List.isPrefixOf_cons_cons, Bool.and_eq_true,
              beq_iff_eq] at occurs
            obtain ⟨rfl, inFront⟩ := occurs
            obtain ⟨later, rfl⟩ := List.isPrefixOf_iff_prefix.mp inFront
            have copied : ∀ letter ∈ rule.tail, ∀ r ∈ [rule],
                letter ≠ r.source := by
              intro letter inTail r member same
              rw [List.mem_singleton.mp member] at same
              exact fresh (same ▸ inTail)
            have becomes : rule.step (rule.tail ++ later) rule.source =
                rule.target := if_pos ⟨rfl, inFront⟩
            have skipped : rule.old.length - 1 = rule.tail.length := rfl
            rw [skipped, List.drop_left, rewrite, List.foldl_cons, becomes,
              List.foldl_nil, rewrite_append_of_notMem copied]
            rfl
          · have stays : rule.step rest letter = letter := by
              apply if_neg
              intro applies
              apply occurs
              rw [Rule.old, List.isPrefixOf_cons_cons, Bool.and_eq_true,
                beq_iff_eq]
              exact ⟨applies.1.symm, applies.2⟩
            rw [rewrite, List.foldl_cons, stays, List.foldl_nil]

theorem replaceAll_eq_rewrite (fresh : rule.source ∉ rule.tail)
    (text : List α) :
    replaceAll rule.old rule.new text = rewrite [rule] text := by
  rw [replaceAll, replaceFrom_eq_rewrite fresh, List.drop_zero]

/-- Replacing the words of independent rules one after the other. -/
theorem foldl_replaceAll (independent : Independent rules) (text : List α) :
    rules.foldl (fun text rule => replaceAll rule.old rule.new text) text =
      rewrite rules text := by
  induction rules generalizing text with
  | nil => rw [List.foldl_nil, rewrite_nil_rules]
  | cons rule rules inductionHypothesis =>
      have fresh : rule.source ∉ rule.tail :=
        independent.source_notMem rule List.mem_cons_self rule
          List.mem_cons_self
      have laterIndependent : Independent rules :=
        independent.mono fun later => List.mem_cons_of_mem rule
      have together : Independent ([rule] ++ rules) := independent
      rw [List.foldl_cons, inductionHypothesis laterIndependent,
        replaceAll_eq_rewrite fresh, rewrite_rewrite together,
        List.singleton_append]

/-! ### Letters that cut a text -/

/-- No tail reaches over a letter that is in no rule. -/
theorem isPrefixOf_append_cons {cut : α} {tail : List α} (fresh : cut ∉ tail)
    (text rest : List α) :
    tail.isPrefixOf (text ++ cut :: rest) = tail.isPrefixOf text := by
  induction tail generalizing text with
  | nil => rw [List.isPrefixOf_nil_left, List.isPrefixOf_nil_left]
  | cons first tail inductionHypothesis =>
      cases text with
      | nil =>
          have different : first ≠ cut := fun same =>
            fresh (same ▸ List.mem_cons_self)
          rw [List.nil_append, List.isPrefixOf_cons_cons,
            beq_false_of_ne different]
          rfl
      | cons letter text =>
          rw [List.cons_append, List.isPrefixOf_cons_cons,
            List.isPrefixOf_cons_cons,
            inductionHypothesis fun inTail =>
              fresh (List.mem_cons_of_mem first inTail)]

theorem rewrite_append_cons {cut : α}
    (separates : ∀ rule ∈ rules, cut ∉ rule.old) (text rest : List α) :
    rewrite rules (text ++ cut :: rest) =
      rewrite rules text ++ cut :: rewrite rules rest := by
  induction text with
  | nil =>
      have noRule : ∀ rule ∈ rules, cut ≠ rule.source := fun rule member same =>
        separates rule member (same ▸ List.mem_cons_self)
      have copied : rewrite rules (cut :: rest) = cut :: rewrite rules rest := by
        rw [rewrite, foldl_step_of_ne noRule]
      exact copied
  | cons letter text inductionHypothesis =>
      have sameStep : ∀ letter, ∀ rule ∈ rules,
          rule.step (text ++ cut :: rest) letter = rule.step text letter := by
        intro letter rule member
        have fresh : cut ∉ rule.tail := fun inTail =>
          separates rule member (List.mem_cons_of_mem _ inTail)
        rw [Rule.step, Rule.step, isPrefixOf_append_cons fresh]
      rw [List.cons_append, rewrite, rewrite, inductionHypothesis,
        List.foldl_ext _ _ _ sameStep, List.cons_append]

theorem rewrite_cons_of_cut {cut : α}
    (separates : ∀ rule ∈ rules, cut ∉ rule.old) (rest : List α) :
    rewrite rules (cut :: rest) = cut :: rewrite rules rest :=
  rewrite_append_cons separates [] rest

/-- A text can be cut in front of a letter that is in no rule. -/
theorem rewrite_append_of_head? {rest : List α}
    (separates : ∀ cut ∈ rest.head?, ∀ rule ∈ rules, cut ∉ rule.old)
    (text : List α) :
    rewrite rules (text ++ rest) = rewrite rules text ++ rewrite rules rest ∧
      (rewrite rules rest).head? = rest.head? := by
  cases rest with
  | nil =>
      rw [List.append_nil]
      exact ⟨(List.append_nil _).symm, rfl⟩
  | cons cut rest =>
      have isCut := separates cut rfl
      rw [rewrite_append_cons isCut, rewrite_cons_of_cut isCut]
      exact ⟨rfl, rfl⟩

/-- A text can be cut behind a letter that is in no rule. -/
theorem rewrite_append_of_getLast?
    (separates : ∀ cut ∈ text.getLast?, ∀ rule ∈ rules, cut ∉ rule.old)
    (rest : List α) :
    rewrite rules (text ++ rest) = rewrite rules text ++ rewrite rules rest ∧
      (rewrite rules text).getLast? = text.getLast? := by
  rcases List.eq_nil_or_concat text with empty | concat
  · rw [empty]
    exact ⟨rfl, rfl⟩
  · obtain ⟨front, cut, rfl⟩ := concat
    rw [List.concat_eq_append] at *
    have isCut := separates cut List.getLast?_concat
    have last : rewrite rules (front ++ [cut]) = rewrite rules front ++ [cut] :=
      rewrite_append_cons isCut front []
    rw [last, List.getLast?_concat, List.getLast?_concat, List.append_assoc,
      List.singleton_append, rewrite_append_cons isCut, List.append_assoc,
      List.singleton_append]
    exact ⟨rfl, rfl⟩

/-! ### Occurrences -/

/-- Rules stop at no occurrence: what stands behind a position is rewritten on
its own. -/
theorem drop_rewrite (position : ℕ) (text : List α) :
    (rewrite rules text).drop position = rewrite rules (text.drop position) := by
  induction position generalizing text with
  | zero => rfl
  | succ position inductionHypothesis =>
      cases text with
      | nil => rfl
      | cons letter rest =>
          rw [rewrite, List.drop_succ_cons, List.drop_succ_cons,
            inductionHypothesis]

/-- A letter that no rule applies to stays. -/
theorem foldl_step_of_not_occurs {letter : α} {rest : List α}
    (absent : ∀ rule ∈ rules, ¬ rule.old <+: letter :: rest) :
    rules.foldl (Rule.step rest) letter = letter := by
  apply foldl_step_of_stays
  intro rule member
  apply if_neg
  intro applies
  apply absent rule member
  rw [Rule.old, List.cons_prefix_cons]
  exact ⟨applies.1.symm, List.isPrefixOf_iff_prefix.mp applies.2⟩

/-- The letter that begins an occurrence becomes the new one, whichever other
rules there are. -/
theorem foldl_step_of_occurs (independent : Independent rules)
    (member : rule ∈ rules) {rest : List α} (occurs : rule.tail <+: rest) :
    rules.foldl (Rule.step rest) rule.source = rule.target := by
  induction rules with
  | nil => cases member
  | cons first rules inductionHypothesis =>
      rw [List.foldl_cons]
      by_cases applies :
          rule.source = first.source ∧ first.tail.isPrefixOf rest
      · have becomes : first.step rest rule.source = rule.target := by
          rw [Rule.step, if_pos applies]
          exact independent.target_eq first List.mem_cons_self rule member
            applies.1.symm
        rw [becomes]
        exact foldl_step_of_ne
          (fun later laterMember => independent.target_ne rule member later
            (List.mem_cons_of_mem first laterMember)) rest
      · have stays : first.step rest rule.source = rule.source :=
          if_neg applies
        have notFirst : rule ≠ first := by
          intro same
          subst same
          exact applies ⟨rfl, List.isPrefixOf_iff_prefix.mpr occurs⟩
        rw [stays]
        exact inductionHypothesis
          (independent.mono fun later => List.mem_cons_of_mem first)
          (List.mem_of_ne_of_mem notFirst member)

/-- The letter at the beginning of an occurrence. -/
theorem getElem?_rewrite_of_occurs (independent : Independent rules)
    (member : rule ∈ rules) {position : ℕ}
    (occurs : rule.old <+: text.drop position) :
    (rewrite rules text)[position]? = some rule.target := by
  obtain ⟨later, split⟩ := occurs
  rw [← List.head?_drop, drop_rewrite, ← split, Rule.old, List.cons_append,
    rewrite, foldl_step_of_occurs independent member (List.prefix_append _ _),
    List.head?_cons]

/-- A letter at which no old word begins. -/
theorem getElem?_rewrite_of_not_occurs {position : ℕ}
    (absent : ∀ rule ∈ rules, ¬ rule.old <+: text.drop position) :
    (rewrite rules text)[position]? = text[position]? := by
  rw [← List.head?_drop, ← List.head?_drop, drop_rewrite]
  cases behind : text.drop position with
  | nil => rfl
  | cons letter rest =>
      rw [behind] at absent
      rw [rewrite, foldl_step_of_not_occurs absent, List.head?_cons,
        List.head?_cons]

/-- No old word is left. -/
theorem not_infix_rewrite (independent : Independent rules)
    (member : rule ∈ rules) : ¬ rule.old <:+: rewrite rules text := by
  intro occurs
  obtain ⟨front, back, split⟩ := occurs
  have behind : (rewrite rules text).drop front.length = rule.old ++ back := by
    rw [← split, List.append_assoc, List.drop_left]
  have starts : (rewrite rules text)[front.length]? = some rule.source := by
    rw [← List.head?_drop, behind]
    rfl
  -- A second application would change the letter that begins the occurrence.
  have old : rule.old <+: (rewrite rules text).drop front.length :=
    behind ▸ List.prefix_append rule.old back
  have again := getElem?_rewrite_of_occurs independent member old
  rw [rewrite_rewrite_self independent, starts, Option.some_inj] at again
  exact independent.target_ne rule member rule member again.symm

/-- Nothing changes exactly where no old word occurs. -/
theorem rewrite_eq_self_iff (independent : Independent rules) :
    rewrite rules text = text ↔ ∀ rule ∈ rules, ¬ rule.old <:+: text := by
  constructor
  · intro same rule member
    rw [← same]
    exact not_infix_rewrite independent member
  · intro absent
    apply List.ext_getElem?
    intro position
    apply getElem?_rewrite_of_not_occurs
    intro rule member occurs
    exact absent rule member
      (occurs.isInfix.trans (List.drop_suffix position text).isInfix)

/-! ### Rules to greater letters -/

section Order

variable {β : Type*} [LinearOrder β] {greater : List (Rule β)}

theorem le_foldl_step (increases : ∀ rule ∈ greater, rule.source < rule.target)
    (rest : List β) (letter : β) :
    letter ≤ greater.foldl (Rule.step rest) letter := by
  induction greater generalizing letter with
  | nil => exact le_refl letter
  | cons rule rules inductionHypothesis =>
      have first : letter ≤ rule.step rest letter := by
        rw [Rule.step]
        split_ifs with applies
        · rw [applies.1]
          exact (increases rule List.mem_cons_self).le
        · exact le_refl letter
      have later := inductionHypothesis
        (fun rule member => increases rule (List.mem_cons_of_mem _ member))
        (rule.step rest letter)
      exact first.trans later

/-- A text that changes becomes a greater one. -/
theorem lt_rewrite (increases : ∀ rule ∈ greater, rule.source < rule.target)
    {word : List β} (changed : rewrite greater word ≠ word) :
    word < rewrite greater word := by
  induction word with
  | nil => exact absurd rfl changed
  | cons letter rest inductionHypothesis =>
      rw [rewrite, List.cons_lt_cons_iff]
      rcases (le_foldl_step increases rest letter).lt_or_eq with less | same
      · exact Or.inl less
      · refine Or.inr ⟨same, inductionHypothesis ?_⟩
        intro unchanged
        apply changed
        rw [rewrite, ← same, unchanged]

end Order

end Bright.Lib
