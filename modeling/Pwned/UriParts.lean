-- A text with an authority splits in one way into the parts of the grammar,
-- so the match of a text captures its parts.
import Pwned.UriTarget

open Regex

namespace webservice

/-! ## The parts of a text -/

/-- What a match of a text with an authority can capture. -/
structure Parts where
  scheme : List UInt8
  credentials : Option (List UInt8)
  host : List UInt8
  port : Option (List UInt8)
  path : Option (List UInt8)
  query : Option (List UInt8)
  fragment : Option (List UInt8)

namespace Parts

/-- What stands between the two slashes and the path. -/
def front (p : Parts) : List UInt8 :=
  p.credentials.elim [] (· ++ [64]) ++ (p.host ++ marked 58 p.port)

/-- The query and the fragment. -/
def tail (p : Parts) : List UInt8 := marked 63 p.query ++ marked 35 p.fragment

def text (p : Parts) : List UInt8 :=
  p.scheme ++ 58 :: 47 :: 47 :: (p.front ++ (p.path.getD [] ++ p.tail))

/-- The captures, the newest first. -/
def groups (p : Parts) : List (Nat × List UInt8) :=
  (p.fragment.map (8, ·)).toList ++ ((p.query.map (7, ·)).toList ++
    ((p.path.map (5, ·)).toList ++ ((p.port.map (4, ·)).toList ++
      ((3, p.host) :: ((p.credentials.map (2, ·)).toList ++ [(1, p.scheme)])))))

/-- No part has the marks that end it. -/
structure Shaped (p : Parts) : Prop where
  scheme : ∀ c ∈ p.scheme, c ∉ [58]
  credentials : ∀ w ∈ p.credentials, ∀ c ∈ w, c ∉ [64, 47, 63, 35]
  host : ∀ c ∈ p.host, c ∉ [64, 58, 47, 63, 35]
  port : ∀ w ∈ p.port, ∀ c ∈ w, c ∉ [64, 47, 63, 35]
  path : ∀ w ∈ p.path, w.head? = some 47 ∧ ∀ c ∈ w, c ∉ [63, 35]
  query : ∀ w ∈ p.query, ∀ c ∈ w, c ∉ [35]

section

variable {p q : Parts}

theorem Shaped.front_mem (hp : Shaped p) : ∀ c ∈ p.front, c ∉ [47, 63, 35] := by
  obtain ⟨-, hcredentials, hhost, hport, -⟩ := hp
  intro c hc
  unfold front at hc
  rcases List.mem_append.mp hc with hc | hc
  · cases hw : p.credentials with
    | none => simp [hw] at hc
    | some w =>
      rw [hw, Option.elim_some, List.mem_append, List.mem_singleton] at hc
      rcases hc with hc | rfl
      · exact fun hmem => hcredentials w hw c hc (by simp_all)
      · decide
  · rcases List.mem_append.mp hc with hc | hc
    · exact fun hmem => hhost c hc (by simp_all)
    · cases hw : p.port with
      | none => simp [hw] at hc
      | some w =>
        rw [hw, marked_some, List.mem_cons] at hc
        rcases hc with rfl | hc
        · decide
        · exact fun hmem => hport w hw c hc (by simp_all)

theorem Shaped.host_mem (hp : Shaped p) : 64 ∉ p.host ++ marked 58 p.port := by
  rw [List.mem_append]
  rintro (hc | hc)
  · exact hp.host 64 hc (by simp)
  · cases hw : p.port with
    | none => simp [hw] at hc
    | some w =>
      rw [hw, marked_some, List.mem_cons] at hc
      rcases hc with hc | hc
      · exact absurd hc (by decide)
      · exact hp.port w hw 64 hc (by simp)

theorem tail_head (p : Parts) : ∀ c ∈ p.tail.head?, c ∈ [63, 35] := by
  unfold tail
  cases p.query <;> cases p.fragment <;> simp

theorem Shaped.end_head (hp : Shaped p) :
    ∀ c ∈ (p.path.getD [] ++ p.tail).head?, c ∈ [47, 63, 35] := by
  cases hw : p.path with
  | none => exact fun c hc => List.mem_cons_of_mem _ (p.tail_head c hc)
  | some w =>
    intro c hc
    rw [Option.getD_some, List.head?_append, (hp.path w hw).1] at hc
    simp_all

theorem marked_inj {c : UInt8} {v w : Option (List UInt8)} (h : marked c v = marked c w) :
    v = w := by
  cases v <;> cases w <;> simp_all

theorem marked_head (c : UInt8) (w : Option (List UInt8)) : ∀ d ∈ (marked c w).head?, d ∈ [c] := by
  cases w <;> simp

/-- The front gives the credentials, the host and the port. -/
theorem Shaped.front_inj (hp : Shaped p) (hq : Shaped q) (h : p.front = q.front) :
    p.credentials = q.credentials ∧ p.host = q.host ∧ p.port = q.port := by
  have hrest : p.credentials = q.credentials ∧
      p.host ++ marked 58 p.port = q.host ++ marked 58 q.port := by
    unfold front at h
    cases hv : p.credentials with
    | none =>
      cases hw : q.credentials with
      | none => exact ⟨rfl, by simpa [hv, hw] using h⟩
      | some w =>
        refine absurd ?_ hp.host_mem
        simp only [hv, hw, Option.elim_none, Option.elim_some, List.nil_append] at h
        simp [h]
    | some v =>
      cases hw : q.credentials with
      | none =>
        refine absurd ?_ hq.host_mem
        simp only [hv, hw, Option.elim_none, Option.elim_some, List.nil_append] at h
        simp [← h]
      | some w =>
        simp only [hv, hw, Option.elim_some, List.append_assoc] at h
        have hfree : ∀ {p : Parts}, Shaped p → ∀ {v}, p.credentials = some v →
            ∀ c ∈ v, c ∉ [64] :=
          fun hp v hv c hc hmem => hp.credentials v hv c hc (by simp_all)
        obtain ⟨rfl, htail⟩ := append_unique (hfree hp hv) (by simp) (hfree hq hw) (by simp) h
        exact ⟨rfl, (List.cons.inj htail).2⟩
  obtain ⟨hcredentials, hrest⟩ := hrest
  have hfree : ∀ {p : Parts}, Shaped p → ∀ c ∈ p.host, c ∉ [58] :=
    fun hp c hc hmem => hp.host c hc (by simp_all)
  obtain ⟨hhost, hport⟩ := append_unique (hfree hp) (marked_head _ _) (hfree hq)
    (marked_head _ _) hrest
  exact ⟨hcredentials, hhost, marked_inj hport⟩

theorem Shaped.tail_inj (hp : Shaped p) (hq : Shaped q) (h : p.tail = q.tail) :
    p.query = q.query ∧ p.fragment = q.fragment := by
  have hmem : ∀ {p : Parts}, Shaped p → ∀ c ∈ marked 63 p.query, c ∉ [35] := by
    intro p hp c hc
    cases hw : p.query with
    | none => simp [hw] at hc
    | some w =>
      rw [hw, marked_some, List.mem_cons] at hc
      rcases hc with rfl | hc
      · decide
      · exact hp.query w hw c hc
  obtain ⟨hquery, hfragment⟩ := append_unique (hmem hp) (marked_head _ _) (hmem hq)
    (marked_head _ _) h
  exact ⟨marked_inj hquery, marked_inj hfragment⟩

/-- The path has a slash if it is there at all. -/
theorem Shaped.path_inj (hp : Shaped p) (hq : Shaped q) (h : p.path.getD [] = q.path.getD []) :
    p.path = q.path := by
  cases hv : p.path with
  | none =>
    cases hw : q.path with
    | none => rfl
    | some w =>
      rw [hv, hw, Option.getD_none, Option.getD_some] at h
      exact absurd (hq.path w hw).1 (by simp [← h])
  | some v =>
    cases hw : q.path with
    | none =>
      rw [hv, hw, Option.getD_none, Option.getD_some] at h
      exact absurd (hp.path v hv).1 (by simp [h])
    | some w => simpa [hv, hw] using h

/-- A text has one split into parts. -/
theorem Shaped.text_inj (hp : Shaped p) (hq : Shaped q) (h : p.text = q.text) : p = q := by
  have hpath_mem : ∀ {p : Parts}, Shaped p → ∀ c ∈ p.path.getD [], c ∉ [63, 35] := by
    intro p hp c hc
    cases hw : p.path with
    | none => simp [hw] at hc
    | some w => exact (hp.path w hw).2 c (by simpa [hw] using hc)
  obtain ⟨hscheme, hrest⟩ := append_unique hp.scheme (by simp) hq.scheme (by simp) h
  simp only [List.cons.injEq, true_and] at hrest
  obtain ⟨hfront, hend⟩ := append_unique hp.front_mem hp.end_head hq.front_mem hq.end_head hrest
  obtain ⟨hpath, htail⟩ := append_unique (hpath_mem hp) p.tail_head (hpath_mem hq) q.tail_head hend
  obtain ⟨hcredentials, hhost, hport⟩ := hp.front_inj hq hfront
  obtain ⟨hquery, hfragment⟩ := hp.tail_inj hq htail
  have hpath := hp.path_inj hq hpath
  cases p
  cases q
  simp_all

end

end Parts

/-! ## The match captures the parts -/

theorem forall_not_mem {letters marks : List UInt8}
    (h : (letters.all fun c => c ∉ marks) = true) : ∀ c ∈ letters, c ∉ marks := by
  simpa using h

namespace RE

theorem credentials_of_run {st st' : State UInt8}
    (h : st' ∈ run (opt (seq (group 2 (star (char ":"))) (oneOf (ascii "@")))) st) :
    ∃ credentials : Option (List UInt8), st.1 = credentials.elim [] (· ++ [64]) ++ st'.1 ∧
      (∀ w ∈ credentials, ∀ c ∈ w, c ∉ [64, 47, 63, 35]) ∧
      st'.2 = (credentials.map (2, ·)).toList ++ st.2 := by
  have hletters : ∀ c ∈ (star (char ":")).letters, c ∉ [64, 47, 63, 35] :=
    forall_not_mem (by decide +kernel)
  rcases mem_run_opt.mp h with hsome | rfl
  · obtain ⟨mid, hgroup, hat⟩ := mem_run_seq.mp hsome
    obtain ⟨w, hw, hcaps⟩ := run_group rfl hgroup
    obtain ⟨c, hc, rfl⟩ := mem_run_oneOf.mp hat
    obtain rfl : c = 64 := List.mem_singleton.mp hc
    refine ⟨some w, by simpa using hw.1, ?_, hcaps⟩
    intro w' hw'
    rw [← Option.some.inj hw']
    exact fun c hc => hletters c (hw.2 c hc)
  · exact ⟨none, rfl, by simp, rfl⟩

theorem path_of_run {st st' : State UInt8}
    (h : st' ∈ run (opt (group 5 (seq slash (star (char ":@/"))))) st) :
    ∃ path : Option (List UInt8), st.1 = path.getD [] ++ st'.1 ∧
      (∀ w ∈ path, w.head? = some 47 ∧ ∀ c ∈ w, c ∉ [63, 35]) ∧
      st'.2 = (path.map (5, ·)).toList ++ st.2 := by
  have hletters : ∀ c ∈ (seq slash (star (char ":@/"))).letters, c ∉ [63, 35] :=
    forall_not_mem (by decide +kernel)
  rcases mem_run_opt.mp h with hgroup | rfl
  · obtain ⟨w, hw, hcaps⟩ := run_group rfl hgroup
    refine ⟨some w, hw.1, ?_, hcaps⟩
    intro w' hw'
    rw [← Option.some.inj hw']
    refine ⟨?_, fun c hc => hletters c (hw.2 c hc)⟩
    -- the slash is the first letter of the group
    rw [Regex.run, List.mem_map] at hgroup
    obtain ⟨last, hseq, hlast⟩ := hgroup
    obtain ⟨mid, hslash, hstar⟩ := mem_run_seq.mp hseq
    obtain ⟨c, hc, he⟩ := mem_run_oneOf.mp hslash
    obtain ⟨v, hv, -⟩ := run_takes _ _ _ hstar
    obtain rfl : c = 47 := List.mem_singleton.mp hc
    have hrest : last.1 = st'.1 := by rw [← hlast]
    have htext : w ++ st'.1 = (47 :: v) ++ st'.1 := by
      rw [← hw.1, he, hv, hrest]
      rfl
    rw [List.append_cancel_right htext]
    rfl
  · exact ⟨none, rfl, by simp, rfl⟩

/-- The parts of the authority, in front of what stands behind it. -/
theorem authority_of_run {st st' : State UInt8} (h : st' ∈ run authority st) :
    ∃ (credentials : Option (List UInt8)) (host : List UInt8) (port path : Option (List UInt8)),
      st.1 = 47 :: 47 :: (credentials.elim [] (· ++ [64]) ++
        (host ++ (marked 58 port ++ (path.getD [] ++ st'.1)))) ∧
      (∀ w ∈ credentials, ∀ c ∈ w, c ∉ [64, 47, 63, 35]) ∧
      (∀ c ∈ host, c ∉ [64, 58, 47, 63, 35]) ∧
      (∀ w ∈ port, ∀ c ∈ w, c ∉ [64, 47, 63, 35]) ∧
      (∀ w ∈ path, w.head? = some 47 ∧ ∀ c ∈ w, c ∉ [63, 35]) ∧
      st'.2 = (path.map (5, ·)).toList ++ ((port.map (4, ·)).toList ++
        ((3, host) :: ((credentials.map (2, ·)).toList ++ st.2))) := by
  have hhost_letters : ∀ c ∈ (star (char "")).letters, c ∉ [64, 58, 47, 63, 35] :=
    forall_not_mem (by decide +kernel)
  have hport_letters : ∀ c ∈ (star (oneOf (ascii "0123456789"))).letters, c ∉ [64, 47, 63, 35] :=
    forall_not_mem (by decide +kernel)
  obtain ⟨st₁, hslashes, h₁⟩ := mem_run_seq.mp h
  obtain ⟨st₂, hcredentials, h₂⟩ := mem_run_seq.mp h₁
  obtain ⟨st₃, hhost, h₃⟩ := mem_run_seq.mp h₂
  obtain ⟨st₄, hport, hpath⟩ := mem_run_seq.mp h₃
  obtain ⟨mid, hone, htwo⟩ := mem_run_seq.mp hslashes
  obtain ⟨c, hc, rfl⟩ := mem_run_oneOf.mp hone
  obtain ⟨d, hd, rfl⟩ := mem_run_oneOf.mp htwo
  obtain rfl : c = 47 := List.mem_singleton.mp hc
  obtain rfl : d = 47 := List.mem_singleton.mp hd
  obtain ⟨credentials, htext₁, hshape₁, hcaps₁⟩ := credentials_of_run hcredentials
  obtain ⟨host, htakes, hcaps₂⟩ := run_group rfl hhost
  obtain ⟨port, htext₃, hshape₃, hcaps₃⟩ := run_marked (c := 58) rfl hport
  obtain ⟨path, htext₄, hshape₄, hcaps₄⟩ := path_of_run hpath
  refine ⟨credentials, host, port, path, ?_, hshape₁, ?_, ?_, hshape₄, ?_⟩
  · rw [htext₁, htakes.1, htext₃, htext₄]
  · exact fun c hc => hhost_letters c (htakes.2 c hc)
  · exact fun w hw c hc => hport_letters c (hshape₃ w hw c hc)
  · rw [hcaps₄, hcaps₃, hcaps₂, hcaps₁]

/-- A match of a text with two slashes behind the scheme captures the parts of the text. -/
theorem parts_of_run {scheme rest : List UInt8} {m : List (Nat × List UInt8)}
    (hscheme : ∀ c ∈ scheme, c ∉ [58])
    (h : ([], m) ∈ run RE (scheme ++ 58 :: 47 :: 47 :: rest, [])) :
    ∃ p : Parts, p.Shaped ∧ scheme ++ 58 :: 47 :: 47 :: rest = p.text ∧ m = p.groups := by
  have hscheme_letters : ∀ c ∈ RE.scheme.letters, c ∉ [58] :=
    forall_not_mem (by decide +kernel)
  obtain ⟨st₁, hgroup, h₁⟩ := mem_run_seq.mp h
  obtain ⟨st₂, hcolon, h₂⟩ := mem_run_seq.mp h₁
  obtain ⟨st₃, hhier, h₃⟩ := mem_run_seq.mp h₂
  obtain ⟨w, htakes, hcaps₁⟩ := run_group rfl hgroup
  obtain ⟨c, hc, rfl⟩ := mem_run_oneOf.mp hcolon
  obtain rfl : c = 58 := List.mem_singleton.mp hc
  obtain ⟨rfl, htext₂⟩ := append_unique hscheme (by simp)
    (fun c hc => hscheme_letters c (htakes.2 c hc)) (by simp) htakes.1
  have htext₂ : 47 :: 47 :: rest = st₂.1 := (List.cons.inj htext₂).2
  obtain ⟨q, f, hend, hq, -, hm⟩ := run_end h₃
  rcases mem_run_alt.mp hhier with hauthority | hopaque
  · obtain ⟨credentials, host, port, path, htext₃, hcredentials, hhost, hport, hpath, hcaps₃⟩ :=
      authority_of_run hauthority
    refine ⟨⟨scheme, credentials, host, port, path, q, f⟩,
      ⟨hscheme, hcredentials, hhost, hport, hpath, ?_⟩, ?_, ?_⟩
    · intro w hw c hc hmem
      rw [List.mem_singleton.mp hmem] at hc
      exact hq w hw hc
    · rw [htext₂, htext₃, hend]
      simp [Parts.text, Parts.front, Parts.tail]
    · have hcaps₂ : st₂.2 = [(1, scheme)] := hcaps₁
      rw [hm, hcaps₃, hcaps₂]
      rfl
  · have hst₂ : st₂ = (47 :: 47 :: rest, st₂.2) := Prod.ext htext₂.symm rfl
    rw [hst₂] at hopaque
    have hst₃ := run_opaquePath hopaque
    rw [hst₃] at h₃
    exact absurd (run_end_head h₃ 47 rfl) (by decide)

end RE

/-! ## The grammar takes the parts -/

/-- Parts without escapes. -/
structure Parts.Plain (p : Parts) : Prop where
  scheme_ne : p.scheme ≠ []
  scheme : ∀ c ∈ p.scheme,
    c ∈ ascii "abcdefghijklmnopqrstuvwxyz" ++ ascii "0123456789" ++ ascii "+.-"
  credentials : ∀ w ∈ p.credentials, ∀ c ∈ w, c ∈ RE.bracket ":"
  host : ∀ c ∈ p.host, c ∈ RE.bracket ""
  port : ∀ w ∈ p.port, ∀ c ∈ w, c ∈ ascii "0123456789"
  path : ∀ w ∈ p.path, w.head? = some 47 ∧ ∀ c ∈ w, c ∈ RE.bracket ":@/"
  query : ∀ w ∈ p.query, ∀ c ∈ w, c ∈ RE.bracket ":/?@"
  fragment : ∀ w ∈ p.fragment, ∀ c ∈ w, c ∈ RE.bracket ":/?@"

namespace RE

theorem reads_chars {w : List UInt8} {extra : String} (h : ∀ c ∈ w, c ∈ bracket extra) :
    Reads (star (char extra)) w [] := reads_star fun c hc => (reads_oneOf (h c hc)).left

theorem reads_slash : Reads slash [47] [] := reads_oneOf (by decide)

theorem reads_credentials {credentials : Option (List UInt8)}
    (h : ∀ w ∈ credentials, ∀ c ∈ w, c ∈ bracket ":") :
    Reads (opt (seq (group 2 (star (char ":"))) (oneOf (ascii "@"))))
      (credentials.elim [] (· ++ [64])) (credentials.map (2, ·)).toList := by
  have hat : Reads (oneOf (ascii "@")) [64] [] := reads_oneOf (by decide)
  cases credentials with
  | none => exact reads_opt_nil
  | some w => exact ((reads_chars (h w rfl)).group.seq hat).opt

theorem reads_path {path : Option (List UInt8)}
    (h : ∀ w ∈ path, w.head? = some 47 ∧ ∀ c ∈ w, c ∈ bracket ":@/") :
    Reads (opt (group 5 (seq slash (star (char ":@/"))))) (path.getD [])
      (path.map (5, ·)).toList := by
  cases path with
  | none => exact reads_opt_nil
  | some w =>
    obtain ⟨hhead, hletters⟩ := h w rfl
    obtain ⟨w, rfl⟩ := List.head?_eq_some_iff.mp hhead
    have hrest := reads_chars (List.forall_mem_cons.mp hletters).2
    exact (reads_slash.seq hrest).group.opt

/-- The grammar takes the whole text, with the parts as its groups. -/
theorem reads_text {p : Parts} (hp : p.Plain) : Reads RE p.text p.groups := by
  obtain ⟨hne, hscheme, hcredentials, hhost, hport, hpath, hquery, hfragment⟩ := hp
  have hscheme : Reads (group 1 RE.scheme) p.scheme [(1, p.scheme)] :=
    (reads_plus hne fun c hc => reads_oneOf (hscheme c hc)).group
  have hcolon : Reads (oneOf (ascii ":")) [58] [] := reads_oneOf (by decide)
  have hhost : Reads (group 3 (star (char ""))) p.host [(3, p.host)] := (reads_chars hhost).group
  have hport : Reads (opt (seq (oneOf (ascii ":")) (group 4 (star (oneOf (ascii "0123456789"))))))
      (marked 58 p.port) (p.port.map (4, ·)).toList :=
    reads_marked fun w hw => reads_star fun c hc => reads_oneOf (hport w hw c hc)
  have hquery : Reads RE.query (marked 63 p.query) (p.query.map (7, ·)).toList :=
    reads_marked fun w hw => reads_chars (hquery w hw)
  have hfragment : Reads RE.fragment (marked 35 p.fragment) (p.fragment.map (8, ·)).toList :=
    reads_marked fun w hw => reads_chars (hfragment w hw)
  have hauthority := (reads_slash.seq reads_slash).seq
    ((reads_credentials hcredentials).seq (hhost.seq (hport.seq (reads_path hpath))))
  have htext : Reads RE _ _ :=
    hscheme.seq (hcolon.seq (hauthority.left.seq (hquery.seq hfragment)))
  simpa [Parts.text, Parts.front, Parts.tail, Parts.groups] using htext

/-- The match captures the parts. -/
theorem search_text {p : Parts} (hplain : p.Plain) (hshaped : p.Shaped) :
    RE.search p.text = some p.groups := by
  apply search_eq_some
  · simpa using reads_text hplain [] []
  · intro m hm
    obtain ⟨q, hq, htext, rfl⟩ := parts_of_run hshaped.scheme hm
    rw [hshaped.text_inj hq htext]

end RE

end webservice
