-- The two parsers of URIs on one target. They agree on a target with no
-- question mark but one, before its hash sign.
import Pwned.Uri

open Regex

namespace webservice

/-! ## The match of a target -/

/-- The parts of a target. -/
structure Target (t path : List UInt8) (query fragment : Option (List UInt8)) : Prop where
  text : t = path ++ (marked 63 query ++ marked 35 fragment)
  path_query : 63 ∉ path
  path_fragment : 35 ∉ path
  query_fragment : ∀ q ∈ query, 35 ∉ q
  fragment_fragment : ∀ f ∈ fragment, 35 ∉ f

namespace RE

/-- The end of the text behind the path. -/
theorem run_end {st : State UInt8} {m : List (Nat × List UInt8)}
    (h : ([], m) ∈ run (seq query fragment) st) :
    ∃ q f, st.1 = marked 63 q ++ marked 35 f ∧ (∀ w ∈ q, 35 ∉ w) ∧ (∀ w ∈ f, 35 ∉ w) ∧
      m = (f.map (8, ·)).toList ++ ((q.map (7, ·)).toList ++ st.2) := by
  obtain ⟨mid, hmid, hend⟩ := mem_run_seq.mp h
  obtain ⟨q, hq, hqs, hqcaps⟩ := run_marked (c := 63) rfl hmid
  obtain ⟨f, hf, hfs, hfcaps⟩ := run_marked (c := 35) rfl hend
  dsimp only at hf hfcaps
  have hsharp : 35 ∉ (star (char ":/?@")).letters := by decide
  refine ⟨q, f, ?_, ?_, ?_, ?_⟩
  · rw [hq, hf, List.append_nil]
  · exact fun w hw hmem => hsharp (hqs w hw 35 hmem)
  · exact fun w hw hmem => hsharp (hfs w hw 35 hmem)
  · rw [hfcaps, hqcaps]

/-- Only a question mark or a hash sign can stand behind the path. -/
theorem run_end_head {st : State UInt8} {m : List (Nat × List UInt8)}
    (h : ([], m) ∈ run (seq query fragment) st) : ∀ c ∈ st.1.head?, c = 63 ∨ c = 35 := by
  obtain ⟨q, f, htext, -⟩ := run_end h
  intro c hc
  rw [htext] at hc
  cases q with
  | some w => exact Or.inl (Option.some.inj hc).symm
  | none =>
    cases f with
    | some w => exact Or.inr (Option.some.inj hc).symm
    | none => cases hc

theorem run_char {extra : String} {st st' : State UInt8} (h : st' ∈ run (char extra) st) :
    ∃ c rest, st.1 = c :: rest ∧ c ∈ (char extra).letters := by
  rcases mem_run_alt.mp h with hone | hescape
  · obtain ⟨c, hc, rfl⟩ := mem_run_oneOf.mp hone
    exact ⟨c, _, rfl, List.mem_append_left _ hc⟩
  · obtain ⟨mid, hmid, -⟩ := mem_run_seq.mp hescape
    obtain ⟨c, hc, rfl⟩ := mem_run_oneOf.mp hmid
    exact ⟨c, _, rfl, List.mem_append_right _ (List.mem_append_left _ hc)⟩

/-- Without an authority there are no two slashes. -/
theorem run_opaquePath {rest : List UInt8} {caps : List (Nat × List UInt8)} {st' : State UInt8}
    (h : st' ∈ run opaquePath (47 :: 47 :: rest, caps)) : st' = (47 :: 47 :: rest, caps) := by
  have hslash : 47 ∉ (char ":@").letters := by decide
  rcases mem_run_opt.mp h with hgroup | rfl
  · rw [Regex.run, List.mem_map] at hgroup
    obtain ⟨_, hseq, -⟩ := hgroup
    obtain ⟨mid, hmid, hrest⟩ := mem_run_seq.mp hseq
    obtain ⟨_, hplus, -⟩ := mem_run_seq.mp hrest
    obtain ⟨_, hchar, -⟩ := mem_run_seq.mp hplus
    obtain ⟨c, rest', htext, hc⟩ := run_char hchar
    have hmid' : mid.1 = 47 :: rest ∨ mid.1 = 47 :: 47 :: rest := by
      rcases mem_run_opt.mp hmid with hone | rfl
      · obtain ⟨d, -, he⟩ := mem_run_oneOf.mp hone
        exact Or.inl (List.cons.inj (Prod.mk.inj he).1).2.symm
      · exact Or.inr rfl
    rcases hmid' with he | he
    · rw [he] at htext
      exact absurd ((List.cons.inj htext).1 ▸ hc) hslash
    · rw [he] at htext
      exact absurd ((List.cons.inj htext).1 ▸ hc) hslash
  · rfl

/-- No credentials stand before a slash. -/
theorem run_credentials {rest : List UInt8} {st st' : State UInt8}
    (htext : st.1 = [104] ++ 47 :: rest)
    (h : st' ∈ run (opt (seq (group 2 (star (char ":"))) (oneOf (ascii "@")))) st) : st' = st := by
  have hslash : 47 ∉ (star (char ":")).letters := by decide
  rcases mem_run_opt.mp h with hsome | rfl
  · obtain ⟨mid, hgroup, hat⟩ := mem_run_seq.mp hsome
    obtain ⟨w, hw, -⟩ := run_group rfl hgroup
    obtain ⟨z, hz, hmid⟩ := hw.stops htext hslash
    obtain ⟨c, hc, rfl⟩ := mem_run_oneOf.mp hat
    obtain rfl : c = 64 := List.mem_singleton.mp hc
    cases z with
    | nil => cases hmid
    | cons d z =>
      obtain rfl : d = 104 := by
        have hmem : d ∈ [104] := by simp [hz]
        exact List.mem_singleton.mp hmem
      cases hmid
  · rfl

/-- Behind the host comes the path when neither a port nor the query nor the fragment can. -/
theorem run_path {c : UInt8} {rest : List UInt8} {st st' : State UInt8} (htext : st.1 = c :: rest)
    (hc : c ≠ 58 ∧ c ≠ 63 ∧ c ≠ 35)
    (h : st' ∈ run (seq
      (opt (seq (oneOf (ascii ":")) (group 4 (star (oneOf (ascii "0123456789"))))))
      (opt (group 5 (seq slash (star (char ":@/")))))) st)
    (hend : ∀ d ∈ st'.1.head?, d = 63 ∨ d = 35) :
    c = 47 ∧ ∃ path, st.1 = path ++ st'.1 ∧ 63 ∉ path ∧ 35 ∉ path ∧
      st'.2 = (5, path) :: st.2 := by
  have hmarks : 63 ∉ (seq slash (star (char ":@/"))).letters ∧
      35 ∉ (seq slash (star (char ":@/"))).letters := by decide
  obtain ⟨mid, hport, hpath⟩ := mem_run_seq.mp h
  obtain ⟨port, hmid, -, hcaps⟩ := run_marked (c := 58) rfl hport
  rw [htext] at hmid
  cases port with
  | some w => exact absurd (List.cons.inj hmid).1 hc.1
  | none =>
    rw [marked_none, List.nil_append] at hmid
    rcases mem_run_opt.mp hpath with hgroup | rfl
    · obtain ⟨path, hpath, hcaps'⟩ := run_group rfl hgroup
      refine ⟨?_, path, by rw [htext, hmid, hpath.1], ?_, ?_, by rw [hcaps', hcaps]; rfl⟩
      · rw [Regex.run, List.mem_map] at hgroup
        obtain ⟨_, hseq, -⟩ := hgroup
        obtain ⟨_, hslash, -⟩ := mem_run_seq.mp hseq
        obtain ⟨d, hd, he⟩ := mem_run_oneOf.mp hslash
        rw [he] at hmid
        rw [(List.cons.inj hmid).1]
        exact List.mem_singleton.mp hd
      · exact fun hmem => hmarks.1 (hpath.2 63 hmem)
      · exact fun hmem => hmarks.2 (hpath.2 35 hmem)
    · rcases hend c (by rw [← hmid]; rfl) with he | he
      · exact absurd he hc.2.1
      · exact absurd he hc.2.2

/-- The authority is the host `h` alone when a slash stands behind it, and the path begins
there. -/
theorem run_authority {rest : List UInt8} {caps : List (Nat × List UInt8)} {st' : State UInt8}
    (h : st' ∈ run authority (47 :: 47 :: 104 :: 47 :: rest, caps))
    (hend : ∀ d ∈ st'.1.head?, d = 63 ∨ d = 35) :
    ∃ path, 47 :: rest = path ++ st'.1 ∧ 63 ∉ path ∧ 35 ∉ path ∧
      st'.2 = (5, path) :: (3, [104]) :: caps := by
  have hslash : 47 ∉ (star (char "")).letters := by decide
  obtain ⟨st₁, hslashes, h₁⟩ := mem_run_seq.mp h
  obtain ⟨st₂, hcredentials, h₂⟩ := mem_run_seq.mp h₁
  obtain ⟨st₃, hhost, h₃⟩ := mem_run_seq.mp h₂
  have hst₁ : st₁ = (104 :: 47 :: rest, caps) := by
    obtain ⟨mid, hone, htwo⟩ := mem_run_seq.mp hslashes
    obtain ⟨c, -, hc⟩ := mem_run_oneOf.mp hone
    obtain ⟨d, -, rfl⟩ := mem_run_oneOf.mp htwo
    simp only [Prod.mk.injEq, List.cons.injEq] at hc
    exact Prod.ext hc.1.2.2.symm hc.2.symm
  have hst₂ : st₂ = (104 :: 47 :: rest, caps) := by
    rw [← hst₁]
    have hlong : st₁.1 = [104] ++ 47 :: rest := by
      rw [hst₁]
      rfl
    exact run_credentials hlong hcredentials
  rw [hst₂] at hhost
  obtain ⟨host, htakes, hcaps⟩ := run_group rfl hhost
  obtain ⟨z, hz, hrest⟩ := htakes.stops (u := [104]) rfl hslash
  cases z with
  | nil =>
    rw [List.append_nil] at hz
    obtain ⟨-, path, htext, hquery, hsharp, hcaps'⟩ := run_path hrest (by decide) h₃ hend
    exact ⟨path, by rw [← htext, hrest]; rfl, hquery, hsharp, by rw [hcaps', hcaps, hz]⟩
  | cons d z =>
    obtain rfl : d = 104 := by
      have hmem : d ∈ [104] := by simp [hz]
      exact List.mem_singleton.mp hmem
    have hslash' := (run_path hrest (by decide) h₃ hend).1
    exact absurd hslash' (by decide)

end RE

/-- The match of a target behind `http://h` takes it apart at its first marks. -/
theorem target_of_search {rest : List UInt8} {m : List (Nat × List UInt8)}
    (h : RE.search (ascii "http://h" ++ 47 :: rest) = some m) :
    ∃ path query fragment, Target (47 :: rest) path query fragment ∧ str m 2 = [] ∧
      str m 4 = [] ∧ str m 5 = path ∧ str m 7 = query.getD [] ∧ str m 8 = fragment.getD [] := by
  have hcolon : 58 ∉ RE.scheme.letters := by decide
  obtain ⟨st₁, hscheme, h₁⟩ := mem_run_seq.mp (mem_run_of_search h)
  obtain ⟨st₂, hone, h₂⟩ := mem_run_seq.mp h₁
  obtain ⟨st₃, halt, h₃⟩ := mem_run_seq.mp h₂
  obtain ⟨scheme, htakes, hcaps⟩ := run_group rfl hscheme
  obtain ⟨z, hz, hrest⟩ := htakes.stops (u := ascii "http") (c := 58)
    (v := 47 :: 47 :: 104 :: 47 :: rest) rfl hcolon
  obtain ⟨c, hc, rfl⟩ := mem_run_oneOf.mp hone
  obtain rfl : c = 58 := List.mem_singleton.mp hc
  have hnil : z = [] := by
    cases z with
    | nil => rfl
    | cons d z =>
      have hmem : d ∈ ascii "http" := by simp [hz]
      rw [List.cons_append, List.cons.injEq] at hrest
      rw [← hrest.1] at hmem
      exact absurd hmem (by decide)
  rw [hnil, List.nil_append, List.cons.injEq] at hrest
  have hst₂ : st₂ = (47 :: 47 :: 104 :: 47 :: rest, [(1, scheme)]) := Prod.ext hrest.2 hcaps
  rw [hst₂] at halt
  rcases mem_run_alt.mp halt with hauthority | hopaque
  · obtain ⟨path, htext, hquery, hsharp, hcaps₃⟩ :=
      RE.run_authority hauthority (RE.run_end_head h₃)
    obtain ⟨q, f, hend, hq, hf, hm⟩ := RE.run_end h₃
    refine ⟨path, q, f, ⟨by rw [htext, hend], hquery, hsharp, hq, hf⟩, ?_⟩
    rw [hm, hcaps₃]
    cases q <;> cases f <;> simp [str, List.lookup]
  · have hst₃ := RE.run_opaquePath hopaque
    rw [hst₃] at h₃
    have hhead := RE.run_end_head h₃ 47 rfl
    exact absurd hhead (by decide)

/-! ## Texts before and behind a mark -/

/-- What stands before the first mark, all of the text if there is none. -/
def before (mark : UInt8) (text : List UInt8) : List UInt8 := text.takeWhile (· != mark)

/-- What stands behind the first mark. -/
def behind (mark : UInt8) (text : List UInt8) : List UInt8 := (text.dropWhile (· != mark)).tail

section

variable {mark : UInt8} {u v : List UInt8}

theorem bne_of_not_mem (h : mark ∉ u) : ∀ c ∈ u, (c != mark) = true := by
  intro c hc
  rw [bne_iff_ne]
  rintro rfl
  exact h hc

theorem before_of_not_mem (h : mark ∉ u) : before mark u = u :=
  List.takeWhile_eq_self_iff.mpr (bne_of_not_mem h)

theorem behind_of_not_mem (h : mark ∉ u) : behind mark u = [] := by
  rw [behind, List.dropWhile_eq_nil_iff.mpr (bne_of_not_mem h), List.tail_nil]

theorem before_append (h : mark ∉ u) : before mark (u ++ v) = u ++ before mark v :=
  List.takeWhile_append_of_pos (bne_of_not_mem h)

theorem behind_append (h : mark ∉ u) : behind mark (u ++ v) = behind mark v := by
  rw [behind, List.dropWhile_append_of_pos (bne_of_not_mem h)]
  rfl

@[simp] theorem before_cons_self : before mark (mark :: v) = [] := by simp [before]

@[simp] theorem behind_cons_self : behind mark (mark :: v) = v := by simp [behind]

theorem not_mem_before : mark ∉ before mark u := by
  intro h
  simpa using List.mem_takeWhile_imp h

theorem before_subset : before mark u ⊆ u := (List.takeWhile_prefix _).subset

/-- A split gives the text before the first mark, and splits what stands behind it. -/
theorem splitOn_eq (mark : UInt8) (text : List UInt8) :
    text.splitOn mark =
      before mark text :: if mark ∈ text then (behind mark text).splitOn mark else [] := by
  by_cases h : mark ∈ text
  · obtain ⟨u, v, rfl, hu⟩ := List.eq_append_cons_of_mem h
    rw [if_pos h, before_append hu, behind_append hu, before_cons_self, behind_cons_self,
      List.append_nil, List.splitOn_append_cons_self_of_not_mem hu]
  · rw [if_neg h, before_of_not_mem h, List.splitOn_eq_singleton h]

end

/-! ## The parameters of a query -/

namespace URI

/-- The key and the value of a parameter with exactly one `=`. -/
def assignment (param : List UInt8) : Option (List UInt8 × List UInt8) :=
  match param.splitOn 61 with
  | [key, value] => some (key, value)
  | _ => none

/-- What a query says of a key: the value of the last parameter that assigns it. -/
def lastValue (query key : List UInt8) : Option (List UInt8) :=
  (((query.splitOn 38).filterMap assignment).reverse).lookup key

/-- The parameters are what the second URI has over the first. -/
structure Assigns (params : List (List UInt8)) (uri uri' : URI) : Prop where
  path : uri'.mPath = uri.mPath
  fragment : uri'.mFragment = uri.mFragment
  query : uri'.mQuery = (params.filterMap assignment).reverse ++ uri.mQuery

theorem addParam_assigns (uri : URI) (param : List UInt8) :
    Assigns [param] uri (uri.addParam param) := by
  unfold addParam
  split
  · rename_i key value hsplit
    have hassign : assignment param = some (key, value) := by rw [assignment, hsplit]
    exact ⟨rfl, rfl, by simp [hassign]⟩
  · rename_i hsplit
    have hassign : assignment param = none := by
      unfold assignment
      split
      · rename_i key value h
        exact absurd h (hsplit key value)
      · rfl
    exact ⟨rfl, rfl, by simp [hassign]⟩

/-- The loop of `parse` assigns what the loop of `parseTarget` does. -/
theorem addValidParam_assigns (uri : URI) (param : List UInt8) :
    Assigns [param] uri (uri.addValidParam param) := by
  obtain ⟨hpath, hfragment, hquery⟩ := addParam_assigns uri param
  unfold addParam at hpath hfragment hquery
  unfold addValidParam
  split
  · rename_i key value hsplit
    rw [hsplit] at hpath hfragment hquery
    exact ⟨hpath, hfragment, hquery⟩
  · rename_i hsplit
    split at hquery
    · rename_i key value h
      exact absurd h (hsplit key value)
    · exact ⟨rfl, rfl, hquery⟩

theorem foldl_assigns {turn : URI → List UInt8 → URI}
    (hturn : ∀ uri param, Assigns [param] uri (turn uri param)) (params : List (List UInt8))
    (uri : URI) : Assigns params uri (params.foldl turn uri) := by
  induction params generalizing uri with
  | nil => exact ⟨rfl, rfl, rfl⟩
  | cons param params ih =>
    obtain ⟨hpath, hfragment, hquery⟩ := hturn uri param
    obtain ⟨hpath', hfragment', hquery'⟩ := ih (turn uri param)
    refine ⟨hpath'.trans hpath, hfragment'.trans hfragment, ?_⟩
    rw [List.foldl_cons, hquery', hquery]
    cases ha : assignment param <;> simp [ha]

/-- What a URI says: its path, the values of its query and its fragment. -/
structure Says (uri : URI) (path query fragment : List UInt8) : Prop where
  path : uri.mPath = path
  query : ∀ key, uri.find key = lastValue query key
  fragment : uri.mFragment = fragment

theorem setCredentials_mQuery (uri : URI) (credentials : List UInt8) :
    (uri.setCredentials credentials).mQuery = uri.mQuery := by
  unfold setCredentials
  split <;> rfl

/-- Without a port in the text, nothing throws. -/
theorem setPort_nil (uri : URI) :
    uri.setPort [] = some { uri with mPort := (schemeToPort uri.mScheme).getD uri.mPort } := by
  unfold setPort
  rw [if_neg (by simp)]
  cases schemeToPort uri.mScheme <;> rfl

/-- `parse` takes the parts of the target as the match has them. -/
theorem parse_says {rest : List UInt8} {m : List (Nat × List UInt8)}
    (h : RE.search (ascii "http://h" ++ 47 :: rest) = some m) :
    ∃ path query fragment uri, Target (47 :: rest) path query fragment ∧
      ({} : URI).parse (ascii "http://h" ++ 47 :: rest) = some uri ∧
      uri.Says path (query.getD []) (fragment.getD []) := by
  obtain ⟨path, query, fragment, htarget, -, h₄, h₅, h₇, h₈⟩ := target_of_search h
  unfold parse
  simp only [h, h₄, h₅, h₇, h₈, setPort_nil]
  refine ⟨path, query, fragment, _, htarget, rfl, ?_⟩
  obtain ⟨hpath, -, hquery⟩ := foldl_assigns addValidParam_assigns ((query.getD []).splitOn 38) _
  refine ⟨hpath, ?_, rfl⟩
  intro key
  unfold find
  dsimp only
  rw [hquery, setCredentials_mQuery, List.append_nil]
  rfl

/-- `parseTarget` on a target without a question mark. -/
theorem parseTarget_path {t : List UInt8} (h : 63 ∉ t) :
    (({} : URI).parseTarget t).Says t [] [] := by
  unfold parseTarget
  rw [List.splitOn_eq_singleton h]
  exact ⟨rfl, fun _ => rfl, rfl⟩

/-- `parseTarget` looks at the text between the first question mark and the second. -/
theorem parseTarget_query {path : List UInt8} (text : List UInt8) (h : 63 ∉ path) :
    (({} : URI).parseTarget (path ++ 63 :: text)).Says path (before 35 (before 63 text))
      (before 35 (behind 35 (before 63 text))) := by
  unfold parseTarget
  rw [List.splitOn_append_cons_self_of_not_mem h, splitOn_eq 63 text]
  dsimp only [List.getElem?_cons_zero, List.getElem?_cons_succ]
  rw [splitOn_eq 35 (before 63 text)]
  obtain ⟨hpath, hfragment, hquery⟩ := foldl_assigns addParam_assigns
    ((before 35 (before 63 text)).splitOn 38) { mPath := path }
  by_cases hsharp : 35 ∈ before 63 text
  · rw [if_pos hsharp, splitOn_eq 35 (behind 35 (before 63 text))]
    refine ⟨hpath, fun key => ?_, rfl⟩
    unfold find
    dsimp only [List.getElem?_cons_zero, List.getElem?_cons_succ]
    rw [hquery, List.append_nil]
    rfl
  · rw [if_neg hsharp, behind_of_not_mem hsharp]
    refine ⟨hpath, fun key => ?_, hfragment⟩
    unfold find
    dsimp only [List.getElem?_cons_zero, List.getElem?_cons_succ, List.getElem?_nil]
    rw [hquery, List.append_nil]
    rfl

/-- The path is all of the text before the first question mark. -/
theorem parseTarget_mPath (t : List UInt8) : (({} : URI).parseTarget t).mPath = before 63 t := by
  by_cases h : 63 ∈ t
  · obtain ⟨path, text, rfl, hpath⟩ := List.eq_append_cons_of_mem h
    rw [(parseTarget_query _ hpath).path, before_append hpath, before_cons_self, List.append_nil]
  · rw [(parseTarget_path h).path, before_of_not_mem h]

/-! ## The law -/

/-- The parsers take the same path, query and fragment from the target, `parse` behind a scheme
and a host. -/
def Agree (t : List UInt8) : Prop :=
  ∃ uri, ({} : URI).parse (ascii "http://h" ++ t) = some uri ∧
    uri.mPath = (({} : URI).parseTarget t).mPath ∧
    (∀ key, uri.find key = (({} : URI).parseTarget t).find key) ∧
    uri.mFragment = (({} : URI).parseTarget t).mFragment

theorem agree_iff {t path query fragment path' query' fragment' : List UInt8} {uri : URI}
    (h : ({} : URI).parse (ascii "http://h" ++ t) = some uri) (hs : uri.Says path query fragment)
    (hs' : (({} : URI).parseTarget t).Says path' query' fragment') :
    Agree t ↔ path = path' ∧ (∀ key, lastValue query key = lastValue query' key) ∧
      fragment = fragment' := by
  obtain ⟨hpath, hquery, hfragment⟩ := hs
  obtain ⟨hpath', hquery', hfragment'⟩ := hs'
  unfold Agree
  simp only [h, Option.some.injEq, exists_eq_left', hpath, hquery, hfragment, hpath', hquery',
    hfragment']

/-- The text behind the first question mark: a second one cuts off the parameters and the
fragment behind it. -/
theorem same_query_iff {q : List UInt8} {fragment : Option (List UInt8)} (hq : 35 ∉ q)
    (hf : ∀ f ∈ fragment, 35 ∉ f) {text : List UInt8} (htext : text = q ++ marked 35 fragment) :
    (∀ key, lastValue q key = lastValue (before 35 (before 63 text)) key) ∧
        fragment.getD [] = before 35 (behind 35 (before 63 text)) ↔
      63 ∉ text ∨ fragment.getD [] = [] ∧
        ∀ key, lastValue (before 63 q) key = lastValue q key := by
  by_cases hq63 : 63 ∈ q
  · -- it stands in the query
    obtain ⟨a, b, rfl, ha⟩ := List.eq_append_cons_of_mem hq63
    have ha35 : 35 ∉ a := fun h => hq (List.mem_append_left _ h)
    have hmem : 63 ∈ text := by simp [htext]
    have hbefore : before 63 text = a := by
      rw [htext, List.append_assoc, before_append ha, List.cons_append, before_cons_self,
        List.append_nil]
    rw [hbefore, before_of_not_mem ha35, behind_of_not_mem ha35, before_append ha,
      before_cons_self, List.append_nil]
    constructor
    · rintro ⟨hvalues, hfragment⟩
      exact Or.inr ⟨hfragment, fun key => (hvalues key).symm⟩
    · rintro (hnot | ⟨hfragment, hvalues⟩)
      · exact absurd hmem hnot
      · exact ⟨fun key => (hvalues key).symm, hfragment⟩
  · by_cases h : 63 ∈ text
    · -- it stands in the fragment
      cases fragment with
      | none => exact absurd h (by simpa [htext] using hq63)
      | some f =>
        have hf63 : 63 ∈ f := by simpa [htext, hq63] using h
        have hf35 : 35 ∉ before 63 f := fun hmem => hf f rfl (before_subset hmem)
        have hbefore : before 63 text = q ++ 35 :: before 63 f := by
          rw [htext, marked_some, before_append hq63]
          simp [before]
        rw [hbefore, behind_append hq, behind_cons_self, before_of_not_mem hf35]
        refine iff_of_false ?_ ?_
        · rintro ⟨-, hfragment⟩
          exact not_mem_before (hfragment ▸ hf63 : 63 ∈ before 63 f)
        · rintro (hnot | ⟨hfragment, -⟩)
          · exact hnot h
          · exact List.ne_nil_of_mem hf63 hfragment
    · -- there is none
      have hbefore : before 35 text = q := by
        rw [htext, before_append hq]
        cases fragment <;> simp [before]
      have hbehind : before 35 (behind 35 text) = fragment.getD [] := by
        rw [htext, behind_append hq]
        cases fragment with
        | none => rfl
        | some f => rw [marked_some, behind_cons_self, before_of_not_mem (hf f rfl)]; rfl
      rw [before_of_not_mem h, hbefore, hbehind]
      simp [h]

/-- The parsers agree on a target of the grammar exactly if no hash sign stands before its first
question mark and one of these holds: there is no second question mark, or the fragment is
empty and the parameters behind the second question mark change no value. -/
theorem the_parsers_agree_iff {t : List UInt8} (hslash : t.head? = some 47)
    (hmatch : RE.search (ascii "http://h" ++ t) ≠ none) :
    Agree t ↔ 35 ∉ before 63 t ∧
      (63 ∉ behind 63 t ∨ behind 35 t = [] ∧
        ∀ key, lastValue (before 63 (before 35 (behind 63 t))) key =
          lastValue (before 35 (behind 63 t)) key) := by
  obtain ⟨m, hm⟩ := Option.ne_none_iff_exists'.mp hmatch
  obtain ⟨rest, rfl⟩ : ∃ rest, t = 47 :: rest := List.head?_eq_some_iff.mp hslash
  obtain ⟨path, query, fragment, uri, htarget, hparse, hsays⟩ := parse_says hm
  obtain ⟨htext, hpq, hpf, hqf, hff⟩ := htarget
  rw [htext] at hparse ⊢
  cases query with
  | none =>
    cases fragment with
    | none =>
      -- a path alone
      simp only [marked_none, List.append_nil] at hparse ⊢
      rw [agree_iff hparse hsays (parseTarget_path hpq), before_of_not_mem hpq,
        behind_of_not_mem hpq]
      simp [hpf]
    | some f =>
      -- without a question mark before it, the hash sign is taken for a part of the path
      simp only [marked_none, marked_some, List.nil_append] at hparse ⊢
      have hsharp : 35 ∈ before 63 (path ++ 35 :: f) := by
        rw [before_append hpq]
        simp [before]
      refine iff_of_false ?_ (fun h => h.1 hsharp)
      rintro ⟨uri', huri', hpath, -⟩
      rw [hparse, Option.some.injEq] at huri'
      rw [← huri', hsays.path, parseTarget_mPath] at hpath
      exact hpf (hpath ▸ hsharp)
  | some q =>
    have hq35 : 35 ∉ q := hqf q rfl
    have hnot : 35 ∉ path ++ 63 :: q := by simp [hpf, hq35]
    simp only [marked_some, List.cons_append] at hparse ⊢
    have hbehind : behind 35 (path ++ 63 :: (q ++ marked 35 fragment)) = fragment.getD [] := by
      have hassoc : path ++ 63 :: (q ++ marked 35 fragment) =
          (path ++ 63 :: q) ++ marked 35 fragment := by simp
      rw [hassoc, behind_append hnot]
      cases fragment <;> simp [behind]
    have hbefore : before 35 (q ++ marked 35 fragment) = q := by
      rw [before_append hq35]
      cases fragment <;> simp [before]
    rw [agree_iff hparse hsays (parseTarget_query _ hpq), before_append hpq, behind_append hpq,
      before_cons_self, behind_cons_self, List.append_nil, hbehind, hbefore]
    rw [Option.getD_some, same_query_iff hq35 hff rfl]
    simp [hpf]

theorem the_parsers_agree_on_a_query_and_a_fragment :
    Agree (ascii "/lookup?hash=0f&pretty#top") :=
  (the_parsers_agree_iff rfl (by decide +kernel)).mpr ⟨by decide, Or.inl (by decide)⟩

/-- `parseTarget` finds no fragment in a target without a query. -/
theorem the_parsers_disagree_on_a_fragment :
    (ascii "/lookup#top").head? = some 47 ∧
      RE.search (ascii "http://h" ++ ascii "/lookup#top") ≠ none ∧
      ¬ Agree (ascii "/lookup#top") := by
  refine ⟨rfl, by decide +kernel, ?_⟩
  rintro ⟨uri, hparse, hpath, -⟩
  have hfound : (({} : URI).parse (ascii "http://h" ++ ascii "/lookup#top")).map mPath =
      some (ascii "/lookup") := by decide +kernel
  rw [hparse, Option.map_some, hpath] at hfound
  revert hfound
  decide

end URI

end webservice
