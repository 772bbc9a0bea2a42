-- Regular expressions with capture groups, matched by backtracking. Of all
-- the ways to match, the first in the order in which the quantifiers try
-- them counts.
import Mathlib

inductive Regex (α : Type*)
  | eps
  | oneOf (cs : List α)
  | seq (a b : Regex α)
  | alt (a b : Regex α)
  | star (a : Regex α)
  | group (n : Nat) (a : Regex α)

namespace Regex

variable {α : Type*}

/-- What is left of the text, and what the groups have captured, the newest first. -/
abbrev State (α : Type*) := List α × List (Nat × List α)

/-- `r?` -/
def opt (r : Regex α) : Regex α := alt r eps

/-- `r+` -/
def plus (r : Regex α) : Regex α := seq r (star r)

/-- The turns of a greedy star. A turn that takes nothing from the text is none. -/
def turns (step : State α → List (State α)) : Nat → State α → List (State α)
  | 0, st => [st]
  | fuel + 1, st =>
    ((step st).filter fun st' => st'.1.length < st.1.length).flatMap (turns step fuel) ++ [st]

/-! ## Turns -/

/-- From the one state to the other a word over the letters is taken. -/
def Takes (cs : List α) (st st' : State α) (w : List α) : Prop :=
  st.1 = w ++ st'.1 ∧ ∀ c ∈ w, c ∈ cs

theorem Takes.nil (cs : List α) (st : State α) : Takes cs st st [] := ⟨rfl, by simp⟩

theorem Takes.append {cs ds : List α} {st mid st' : State α} {v w : List α}
    (h : Takes cs st mid v) (h' : Takes ds mid st' w) : Takes (cs ++ ds) st st' (v ++ w) := by
  obtain ⟨he, hc⟩ := h
  obtain ⟨he', hd⟩ := h'
  refine ⟨by rw [he, he', List.append_assoc], ?_⟩
  intro c hmem
  rcases List.mem_append.mp hmem with hv | hw
  · exact List.mem_append_left _ (hc c hv)
  · exact List.mem_append_right _ (hd c hw)

theorem Takes.mono {cs ds : List α} {st st' : State α} {w : List α} (h : Takes cs st st' w)
    (hsub : cs ⊆ ds) : Takes ds st st' w := ⟨h.1, fun c hc => hsub (h.2 c hc)⟩

/-- What is taken ends before a letter that cannot be taken. -/
theorem Takes.stops {cs : List α} {st st' : State α} {w u v : List α} {c : α}
    (h : Takes cs st st' w) (htext : st.1 = u ++ c :: v) (hc : c ∉ cs) :
    ∃ z, u = w ++ z ∧ st'.1 = z ++ c :: v := by
  rw [h.1, List.append_eq_append_iff] at htext
  rcases htext with ⟨z, hu, hrest⟩ | ⟨z, hw, hrest⟩
  · exact ⟨z, hu, hrest⟩
  · cases z with
    | nil => exact ⟨[], by simpa using hw.symm, by simpa using hrest.symm⟩
    | cons d z =>
      rw [List.cons_append, List.cons.injEq] at hrest
      exact absurd (h.2 c (by simp [hw, hrest.1])) hc

section

variable {step : State α → List (State α)} {st st' : State α}

theorem mem_turns_zero : st' ∈ turns step 0 st ↔ st' = st := List.mem_singleton

/-- The turns are one that takes something and the turns behind it, or none. -/
theorem mem_turns_succ {fuel : Nat} : st' ∈ turns step (fuel + 1) st ↔
    (∃ mid ∈ step st, mid.1.length < st.1.length ∧ st' ∈ turns step fuel mid) ∨ st' = st := by
  have hturns : turns step (fuel + 1) st =
      ((step st).filter fun mid => mid.1.length < st.1.length).flatMap (turns step fuel) ++
        [st] := rfl
  rw [hturns, List.mem_append, List.mem_flatMap, List.mem_singleton]
  simp only [List.mem_filter, decide_eq_true_eq, and_assoc]

end

theorem turns_takes {cs : List α} {step : State α → List (State α)}
    (hstep : ∀ st, ∀ st' ∈ step st, ∃ w, Takes cs st st' w) (fuel : Nat) :
    ∀ st, ∀ st' ∈ turns step fuel st, ∃ w, Takes cs st st' w := by
  induction fuel with
  | zero =>
    intro st st' h
    rw [mem_turns_zero] at h
    subst h
    exact ⟨[], Takes.nil cs _⟩
  | succ fuel ih =>
    intro st st' h
    rcases mem_turns_succ.mp h with ⟨mid, hmid, -, h⟩ | rfl
    · obtain ⟨v, hv⟩ := hstep st mid hmid
      obtain ⟨w, hw⟩ := ih mid st' h
      exact ⟨v ++ w, (hv.append hw).mono (by simp)⟩
    · exact ⟨[], Takes.nil cs _⟩

theorem turns_caps {step : State α → List (State α)}
    (hstep : ∀ st, ∀ st' ∈ step st, st'.2 = st.2) (fuel : Nat) :
    ∀ st, ∀ st' ∈ turns step fuel st, st'.2 = st.2 := by
  induction fuel with
  | zero =>
    intro st st' h
    rw [mem_turns_zero.mp h]
  | succ fuel ih =>
    intro st st' h
    rcases mem_turns_succ.mp h with ⟨mid, hmid, -, h⟩ | rfl
    · rw [ih mid st' h, hstep st mid hmid]
    · rfl

/-! ## Matches -/

variable [DecidableEq α]

/-- The ways to match a beginning of the text, in the order in which they are tried. No group
stands inside a star, whose turns would have to clear it. -/
def run : Regex α → State α → List (State α)
  | eps, st => [st]
  | oneOf _, ([], _) => []
  | oneOf cs, (c :: rest, caps) => if c ∈ cs then [(rest, caps)] else []
  | seq a b, st => (run a st).flatMap (run b)
  | alt a b, st => run a st ++ run b st
  | star a, st => turns (run a) st.1.length st
  | group n a, st =>
    (run a st).map fun st' => (st'.1, (n, st.1.take (st.1.length - st'.1.length)) :: st'.2)

/-- The match of the whole text, as `^` and `$` ask for it. -/
def search (r : Regex α) (text : List α) : Option (List (Nat × List α)) :=
  ((run r (text, [])).find? fun st => st.1.isEmpty).map Prod.snd

/-- `m[n].str()`: what the group captured, nothing if it took no part. -/
def str (m : List (Nat × List α)) (n : Nat) : List α := (m.lookup n).getD []

/-! ## What a match takes -/

/-- The letters that a match can take. -/
def letters : Regex α → List α
  | eps => []
  | oneOf cs => cs
  | seq a b => letters a ++ letters b
  | alt a b => letters a ++ letters b
  | star a => letters a
  | group _ a => letters a

/-- An expression without a group. -/
def plain : Regex α → Bool
  | eps => true
  | oneOf _ => true
  | seq a b => plain a && plain b
  | alt a b => plain a && plain b
  | star a => plain a
  | group _ _ => false

section

variable {st st' : State α} {a b : Regex α}

@[simp] theorem mem_run_eps : st' ∈ run eps st ↔ st' = st := List.mem_singleton

theorem mem_run_oneOf {cs : List α} :
    st' ∈ run (oneOf cs) st ↔ ∃ c ∈ cs, st = (c :: st'.1, st'.2) := by
  obtain ⟨text, caps⟩ := st
  obtain ⟨rest, caps'⟩ := st'
  cases text with
  | nil =>
    have hrun : run (oneOf cs) ([], caps) = [] := rfl
    simp [hrun]
  | cons c text =>
    have hrun : run (oneOf cs) (c :: text, caps) = if c ∈ cs then [(text, caps)] else [] := rfl
    rw [hrun]
    split_ifs with h
    · simp [h, eq_comm]
    · simp only [List.not_mem_nil, false_iff, Prod.mk.injEq, List.cons.injEq, not_exists, not_and]
      rintro c' hc' ⟨rfl, -⟩
      exact absurd hc' h

@[simp] theorem mem_run_seq :
    st' ∈ run (seq a b) st ↔ ∃ mid ∈ run a st, st' ∈ run b mid := List.mem_flatMap

@[simp] theorem mem_run_alt : st' ∈ run (alt a b) st ↔ st' ∈ run a st ∨ st' ∈ run b st :=
  List.mem_append

theorem mem_run_star : st' ∈ run (star a) st ↔ st' ∈ turns (run a) st.1.length st := Iff.rfl

theorem mem_run_group {n : Nat} : st' ∈ run (group n a) st ↔ ∃ mid ∈ run a st,
    (mid.1, (n, st.1.take (st.1.length - mid.1.length)) :: mid.2) = st' := List.mem_map

@[simp] theorem mem_run_opt : st' ∈ run (opt a) st ↔ st' ∈ run a st ∨ st' = st := by
  rw [opt, mem_run_alt, mem_run_eps]

end

/-- A match takes a word over the letters of the expression. -/
theorem run_takes (r : Regex α) : ∀ st, ∀ st' ∈ run r st, ∃ w, Takes r.letters st st' w := by
  induction r with
  | eps =>
    intro st st' h
    rw [mem_run_eps] at h
    subst h
    exact ⟨[], Takes.nil _ _⟩
  | oneOf cs =>
    intro st st' h
    obtain ⟨c, hc, rfl⟩ := mem_run_oneOf.mp h
    exact ⟨[c], rfl, fun d hd => by rwa [List.mem_singleton.mp hd]⟩
  | seq a b iha ihb =>
    intro st st' h
    obtain ⟨mid, hmid, h⟩ := mem_run_seq.mp h
    obtain ⟨v, hv⟩ := iha st mid hmid
    obtain ⟨w, hw⟩ := ihb mid st' h
    exact ⟨v ++ w, hv.append hw⟩
  | alt a b iha ihb =>
    intro st st' h
    rcases mem_run_alt.mp h with h | h
    · obtain ⟨w, hw⟩ := iha st st' h
      exact ⟨w, hw.mono (List.subset_append_left ..)⟩
    · obtain ⟨w, hw⟩ := ihb st st' h
      exact ⟨w, hw.mono (List.subset_append_right ..)⟩
  | star a ih =>
    intro st st' h
    exact turns_takes ih _ st st' (mem_run_star.mp h)
  | group n a ih =>
    intro st st' h
    obtain ⟨mid, hmid, rfl⟩ := mem_run_group.mp h
    exact ih st mid hmid

/-! ## What a match captures -/

/-- Without a group nothing is captured. -/
theorem run_caps {r : Regex α} (hr : r.plain = true) : ∀ st, ∀ st' ∈ run r st, st'.2 = st.2 := by
  induction r with
  | eps =>
    intro st st' h
    rw [mem_run_eps.mp h]
  | oneOf cs =>
    intro st st' h
    obtain ⟨c, -, rfl⟩ := mem_run_oneOf.mp h
    rfl
  | seq a b iha ihb =>
    obtain ⟨ha, hb⟩ := Bool.and_eq_true_iff.mp hr
    intro st st' h
    obtain ⟨mid, hmid, h⟩ := mem_run_seq.mp h
    rw [ihb hb mid st' h, iha ha st mid hmid]
  | alt a b iha ihb =>
    obtain ⟨ha, hb⟩ := Bool.and_eq_true_iff.mp hr
    intro st st' h
    rcases mem_run_alt.mp h with h | h
    · exact iha ha st st' h
    · exact ihb hb st st' h
  | star a ih =>
    intro st st' h
    exact turns_caps (ih hr) _ st st' (mem_run_star.mp h)
  | group n a => cases hr

/-- A group around an expression without one captures the word that it takes. -/
theorem run_group {n : Nat} {a : Regex α} (ha : a.plain = true) {st st' : State α}
    (h : st' ∈ run (group n a) st) :
    ∃ w, Takes a.letters st st' w ∧ st'.2 = (n, w) :: st.2 := by
  obtain ⟨mid, hmid, rfl⟩ := mem_run_group.mp h
  obtain ⟨w, hw⟩ := run_takes a st mid hmid
  refine ⟨w, hw, ?_⟩
  rw [run_caps ha st mid hmid, hw.1]
  simp

/-- A mark and what stands behind it, if they are there. -/
def marked (c : α) (part : Option (List α)) : List α := part.elim [] (c :: ·)

omit [DecidableEq α] in
@[simp] theorem marked_none (c : α) : marked c none = [] := rfl

omit [DecidableEq α] in
@[simp] theorem marked_some (c : α) (w : List α) : marked c (some w) = c :: w := rfl

/-- An optional part behind a mark. -/
theorem run_marked {c : α} {n : Nat} {a : Regex α} (ha : a.plain = true) {st st' : State α}
    (h : st' ∈ run (opt (seq (oneOf [c]) (group n a))) st) :
    ∃ part, st.1 = marked c part ++ st'.1 ∧ (∀ w ∈ part, ∀ d ∈ w, d ∈ a.letters) ∧
      st'.2 = (part.map (n, ·)).toList ++ st.2 := by
  rcases mem_run_opt.mp h with h | rfl
  · obtain ⟨mid, hmid, hgroup⟩ := mem_run_seq.mp h
    obtain ⟨d, hd, rfl⟩ := mem_run_oneOf.mp hmid
    obtain ⟨w, hw, hcaps⟩ := run_group ha hgroup
    rw [List.mem_singleton.mp hd]
    refine ⟨some w, by rw [hw.1]; rfl, ?_, hcaps⟩
    intro w' hw'
    rw [← Option.some.inj hw']
    exact hw.2
  · exact ⟨none, rfl, by simp, rfl⟩

/-- The match of a whole text is one of the ways to match it. -/
theorem mem_run_of_search {r : Regex α} {text : List α} {m : List (Nat × List α)}
    (h : r.search text = some m) : ([], m) ∈ run r (text, []) := by
  obtain ⟨⟨rest, caps⟩, hfind, rfl⟩ := Option.map_eq_some_iff.mp h
  have hmem := List.mem_of_find?_eq_some hfind
  have hempty := List.find?_some hfind
  dsimp only at hempty
  rwa [List.isEmpty_iff.mp hempty] at hmem

/-- A match of the whole text that is the only one is found. -/
theorem search_eq_some {r : Regex α} {text : List α} {m : List (Nat × List α)}
    (h : ([], m) ∈ run r (text, [])) (hunique : ∀ m', ([], m') ∈ run r (text, []) → m' = m) :
    r.search text = some m := by
  cases hsearch : r.search text with
  | some m' => rw [hunique m' (mem_run_of_search hsearch)]
  | none =>
    rw [search, Option.map_eq_none_iff, List.find?_eq_none] at hsearch
    exact absurd rfl (hsearch _ h)

/-! ## Words that can be taken -/

/-- In front of any text the expression can take the word, and captures the groups. -/
def Reads (r : Regex α) (w : List α) (groups : List (Nat × List α)) : Prop :=
  ∀ rest caps, (rest, groups ++ caps) ∈ run r (w ++ rest, caps)

section

variable {a b : Regex α} {c : α} {cs v w : List α} {n : Nat} {groups groups' : List (Nat × List α)}

theorem reads_oneOf (h : c ∈ cs) : Reads (oneOf cs) [c] [] :=
  fun _ _ => mem_run_oneOf.mpr ⟨c, h, rfl⟩

theorem Reads.seq (ha : Reads a v groups) (hb : Reads b w groups') :
    Reads (seq a b) (v ++ w) (groups' ++ groups) := by
  intro rest caps
  rw [List.append_assoc, List.append_assoc]
  exact mem_run_seq.mpr ⟨_, ha (w ++ rest) caps, hb rest (groups ++ caps)⟩

theorem Reads.left (h : Reads a w groups) : Reads (alt a b) w groups :=
  fun rest caps => mem_run_alt.mpr (Or.inl (h rest caps))

theorem Reads.opt (h : Reads a w groups) : Reads (opt a) w groups := h.left

theorem reads_opt_nil : Reads (Regex.opt a) [] [] := fun _ _ => mem_run_opt.mpr (Or.inr rfl)

theorem turns_reads (h : ∀ c ∈ w, Reads a [c] []) (rest : List α) (caps : List (Nat × List α)) :
    ∀ fuel, w.length ≤ fuel → (rest, caps) ∈ turns (run a) fuel (w ++ rest, caps) := by
  induction w with
  | nil =>
    intro fuel _
    cases fuel with
    | zero => exact mem_turns_zero.mpr rfl
    | succ fuel => exact mem_turns_succ.mpr (Or.inr rfl)
  | cons c w ih =>
    intro fuel hfuel
    obtain ⟨fuel, rfl⟩ : ∃ n, fuel = n + 1 :=
      Nat.exists_eq_succ_of_ne_zero (Nat.ne_of_gt (Nat.lt_of_lt_of_le (Nat.succ_pos _) hfuel))
    refine mem_turns_succ.mpr (Or.inl ⟨(w ++ rest, caps), ?_, by simp, ?_⟩)
    · exact h c (List.mem_cons_self ..) (w ++ rest) caps
    · exact ih (fun d hd => h d (List.mem_cons_of_mem _ hd)) fuel (Nat.le_of_succ_le_succ hfuel)

/-- A star takes a word letter by letter. -/
theorem reads_star (h : ∀ c ∈ w, Reads a [c] []) : Reads (star a) w [] := by
  intro rest caps
  exact mem_run_star.mpr (turns_reads h rest caps _ (by simp))

theorem reads_plus (hw : w ≠ []) (h : ∀ c ∈ w, Reads a [c] []) : Reads (plus a) w [] := by
  cases w with
  | nil => exact absurd rfl hw
  | cons c w =>
    obtain ⟨hc, hw⟩ := List.forall_mem_cons.mp h
    exact Reads.seq hc (reads_star hw)

theorem Reads.group (h : Reads a w []) : Reads (group n a) w [(n, w)] := by
  intro rest caps
  exact mem_run_group.mpr ⟨_, h rest caps, by simp⟩

theorem reads_marked {part : Option (List α)} (h : ∀ w ∈ part, Reads a w []) :
    Reads (Regex.opt (Regex.seq (oneOf [c]) (Regex.group n a))) (marked c part)
      (part.map (n, ·)).toList := by
  cases part with
  | none => exact reads_opt_nil
  | some w =>
    have hmark : Reads (oneOf [c]) [c] [] := reads_oneOf (List.mem_singleton_self c)
    exact (hmark.seq (h w rfl).group).opt

end

omit [DecidableEq α] in
/-- A text splits in one way in front of the letters that cannot stand in its first part. -/
theorem append_unique {stops u v w x : List α} (hu : ∀ c ∈ u, c ∉ stops)
    (hv : ∀ c ∈ v.head?, c ∈ stops) (hw : ∀ c ∈ w, c ∉ stops) (hx : ∀ c ∈ x.head?, c ∈ stops)
    (h : u ++ v = w ++ x) : u = w ∧ v = x := by
  induction u generalizing w with
  | nil =>
    cases w with
    | nil => exact ⟨rfl, h⟩
    | cons d w =>
      rw [List.nil_append] at h
      exact absurd (hv d (by rw [h]; rfl)) (hw d (List.mem_cons_self ..))
  | cons c u ih =>
    cases w with
    | nil =>
      rw [List.nil_append] at h
      exact absurd (hx c (by rw [← h]; rfl)) (hu c (List.mem_cons_self ..))
    | cons d w =>
      rw [List.cons_append, List.cons_append, List.cons.injEq] at h
      obtain ⟨rfl, rfl⟩ := ih (fun c hc => hu c (List.mem_cons_of_mem _ hc))
        (fun d hd => hw d (List.mem_cons_of_mem _ hd)) h.2
      exact ⟨by rw [h.1], rfl⟩

/-! ## The letters of the groups -/

/-- What a group can capture meets its condition. -/
def guarded (P : Nat → α → Bool) : Regex α → Bool
  | eps => true
  | oneOf _ => true
  | seq a b => guarded P a && guarded P b
  | alt a b => guarded P a && guarded P b
  | star a => guarded P a
  | group n a => (letters a).all (P n) && guarded P a

/-- What the groups have captured meets their conditions. -/
def Captured (P : Nat → α → Bool) (st : State α) : Prop := ∀ p ∈ st.2, ∀ c ∈ p.2, P p.1 c = true

omit [DecidableEq α] in
theorem turns_invariant {step : State α → List (State α)} {Inv : State α → Prop}
    (hstep : ∀ st, Inv st → ∀ st' ∈ step st, Inv st') (fuel : Nat) :
    ∀ st, Inv st → ∀ st' ∈ turns step fuel st, Inv st' := by
  induction fuel with
  | zero =>
    intro st hst st' h
    rwa [mem_turns_zero.mp h]
  | succ fuel ih =>
    intro st hst st' h
    rcases mem_turns_succ.mp h with ⟨mid, hmid, -, h⟩ | rfl
    · exact ih mid (hstep st hst mid hmid) st' h
    · exact hst

theorem run_captured {P : Nat → α → Bool} {r : Regex α} (hr : r.guarded P = true) :
    ∀ st, Captured P st → ∀ st' ∈ run r st, Captured P st' := by
  induction r with
  | eps =>
    intro st hst st' h
    rwa [mem_run_eps.mp h]
  | oneOf cs =>
    intro st hst st' h
    obtain ⟨c, -, rfl⟩ := mem_run_oneOf.mp h
    exact hst
  | seq a b iha ihb =>
    obtain ⟨ha, hb⟩ := Bool.and_eq_true_iff.mp hr
    intro st hst st' h
    obtain ⟨mid, hmid, h⟩ := mem_run_seq.mp h
    exact ihb hb mid (iha ha st hst mid hmid) st' h
  | alt a b iha ihb =>
    obtain ⟨ha, hb⟩ := Bool.and_eq_true_iff.mp hr
    intro st hst st' h
    rcases mem_run_alt.mp h with h | h
    · exact iha ha st hst st' h
    · exact ihb hb st hst st' h
  | star a ih =>
    intro st hst st' h
    exact turns_invariant (ih hr) _ st hst st' (mem_run_star.mp h)
  | group n a ih =>
    obtain ⟨hletters, ha⟩ := Bool.and_eq_true_iff.mp hr
    intro st hst st' h
    obtain ⟨mid, hmid, rfl⟩ := mem_run_group.mp h
    obtain ⟨w, hw, hcs⟩ := run_takes a st mid hmid
    intro p hp c hc
    rcases List.mem_cons.mp hp with rfl | hp
    · refine List.all_eq_true.mp hletters c (hcs c ?_)
      simpa [hw] using hc
    · exact ih ha st hst mid hmid p hp c hc

/-- A group of a match has letters that meet its condition. -/
theorem search_guarded {P : Nat → α → Bool} {r : Regex α} (hr : r.guarded P = true)
    {text : List α} {m : List (Nat × List α)} (h : r.search text = some m) (n : Nat) :
    ∀ c ∈ str m n, P n c = true := by
  have hcaptured : Captured P ([], m) :=
    run_captured hr _ (fun p hp => absurd hp List.not_mem_nil) _ (mem_run_of_search h)
  intro c hc
  rw [str] at hc
  rcases hlookup : m.lookup n with _ | w
  · rw [hlookup] at hc
    exact absurd hc List.not_mem_nil
  · rw [hlookup] at hc
    obtain ⟨before, behind, rfl, -⟩ := List.lookup_eq_some_iff.mp hlookup
    exact hcaptured (n, w) (by simp) c hc

end Regex
