-- The parameters of a query as a text, and the round trip of a target through
-- `parseTarget`.
import Pwned.UriTarget

open Regex

namespace webservice
namespace URI

/-! ## The text of parameters -/

/-- `k=v` -/
def renderParam (param : List UInt8 × List UInt8) : List UInt8 := param.1 ++ 61 :: param.2

/-- `k=v&k=v&…` -/
def renderParams (params : List (List UInt8 × List UInt8)) : List UInt8 :=
  [38].intercalate (params.map renderParam)

section

variable {params : List (List UInt8 × List UInt8)} {marks : List UInt8}

/-- Of the marks none stands in a key or a value. -/
def Free (marks : List UInt8) (params : List (List UInt8 × List UInt8)) : Prop :=
  ∀ param ∈ params, ∀ mark ∈ marks, mark ∉ param.1 ∧ mark ∉ param.2

theorem Free.mono {marks' : List UInt8} (h : Free marks params) (hsub : marks' ⊆ marks) :
    Free marks' params := fun param hparam mark hmark => h param hparam mark (hsub hmark)

theorem forall_mem_renderParam {P : UInt8 → Prop} (heq : P 61)
    {param : List UInt8 × List UInt8} (hkey : ∀ c ∈ param.1, P c) (hvalue : ∀ c ∈ param.2, P c) :
    ∀ c ∈ renderParam param, P c := by
  intro c hc
  rcases List.mem_append.mp hc with hmem | hmem
  · exact hkey c hmem
  · rcases List.mem_cons.mp hmem with rfl | hmem
    · exact heq
    · exact hvalue c hmem

/-- The text has the letters of its keys and values, `=` and `&`. -/
theorem forall_mem_renderParams {P : UInt8 → Prop} (heq : P 61) (hamp : P 38)
    (h : ∀ param ∈ params, (∀ c ∈ param.1, P c) ∧ ∀ c ∈ param.2, P c) :
    ∀ c ∈ renderParams params, P c := by
  unfold renderParams
  induction params with
  | nil => simp
  | cons param params ih =>
    obtain ⟨⟨hkey, hvalue⟩, hparams⟩ := List.forall_mem_cons.mp h
    have hparam := forall_mem_renderParam heq hkey hvalue
    by_cases hnil : params = []
    · subst hnil
      simpa using hparam
    · rw [List.map_cons, List.intercalate_cons_of_ne_nil (by simpa using hnil)]
      intro c hc
      rw [List.mem_append, List.mem_append, List.mem_singleton] at hc
      rcases hc with (hc | rfl) | hc
      · exact hparam c hc
      · exact hamp
      · exact ih hparams c hc

/-- A mark that does not stand in a key or a value stands nowhere in the text. -/
theorem not_mem_renderParams {mark : UInt8} (heq : 61 ≠ mark) (hamp : 38 ≠ mark)
    (h : Free [mark] params) : mark ∉ renderParams params := by
  have hne : ∀ c ∈ renderParams params, c ≠ mark := by
    apply forall_mem_renderParams (P := (· ≠ mark)) heq hamp
    intro param hparam
    obtain ⟨hkey, hvalue⟩ := h param hparam mark (List.mem_singleton_self mark)
    exact ⟨fun c hc => ne_of_mem_of_not_mem hc hkey, fun c hc => ne_of_mem_of_not_mem hc hvalue⟩
  exact fun hmem => hne mark hmem rfl

theorem assignment_renderParam {param : List UInt8 × List UInt8} (hkey : 61 ∉ param.1)
    (hvalue : 61 ∉ param.2) : assignment (renderParam param) = some param := by
  unfold assignment renderParam
  rw [List.splitOn_append_cons_self_of_not_mem hkey, List.splitOn_eq_singleton hvalue]

theorem filterMap_renderParam (h : Free [61] params) :
    (params.map renderParam).filterMap assignment = params := by
  induction params with
  | nil => rfl
  | cons param params ih =>
    obtain ⟨hparam, hparams⟩ := List.forall_mem_cons.mp h
    obtain ⟨hkey, hvalue⟩ := hparam 61 (List.mem_singleton_self _)
    rw [List.map_cons, List.filterMap_cons, assignment_renderParam hkey hvalue, ih hparams]

/-- The split at `&` and `=` gives the parameters back. Without any, its one empty piece assigns
nothing. -/
theorem assignments_renderParams (h : Free [38, 61] params) :
    ((renderParams params).splitOn 38).filterMap assignment = params := by
  by_cases hnil : params = []
  · rw [hnil]
    rfl
  · have hfree : ∀ piece ∈ params.map renderParam, 38 ∉ piece := by
      intro piece hpiece
      obtain ⟨param, hparam, rfl⟩ := List.mem_map.mp hpiece
      obtain ⟨hkey, hvalue⟩ := h param hparam 38 (by simp)
      have hne : ∀ c ∈ renderParam param, c ≠ 38 := forall_mem_renderParam (by decide)
        (fun c hc => ne_of_mem_of_not_mem hc hkey) fun c hc => ne_of_mem_of_not_mem hc hvalue
      exact fun hmem => hne 38 hmem rfl
    unfold renderParams
    rw [List.splitOn_intercalate 38 hfree (by simpa using hnil)]
    exact filterMap_renderParam (h.mono (by simp))

theorem lastValue_renderParams (h : Free [38, 61] params) (key : List UInt8) :
    lastValue (renderParams params) key = params.reverse.lookup key := by
  rw [lastValue, assignments_renderParams h]

end

/-! ## The round trip -/

/-- `path?k=v&…#fragment` -/
def renderTarget (path : List UInt8) (params : List (List UInt8 × List UInt8))
    (fragment : Option (List UInt8)) : List UInt8 :=
  path ++ 63 :: (renderParams params ++ marked 35 fragment)

/-- `parseTarget` takes a target apart into what it was rendered from. The last parameter with a
key gives the value. -/
theorem parse_target_inverts_the_rendering {path : List UInt8}
    {params : List (List UInt8 × List UInt8)} {fragment : Option (List UInt8)}
    (hpath : 63 ∉ path) (hparams : Free [63, 35, 38, 61] params)
    (hfragment : ∀ f ∈ fragment, 63 ∉ f ∧ 35 ∉ f) :
    (({} : URI).parseTarget (renderTarget path params fragment)).mPath = path ∧
      (∀ key, (({} : URI).parseTarget (renderTarget path params fragment)).find key =
        params.reverse.lookup key) ∧
      (({} : URI).parseTarget (renderTarget path params fragment)).mFragment =
        fragment.getD [] := by
  have hquestion : 63 ∉ renderParams params :=
    not_mem_renderParams (by decide) (by decide) (hparams.mono (by simp))
  have hsharp : 35 ∉ renderParams params :=
    not_mem_renderParams (by decide) (by decide) (hparams.mono (by simp))
  have htext : 63 ∉ renderParams params ++ marked 35 fragment := by
    cases fragment with
    | none => simpa using hquestion
    | some f => simpa [hquestion] using (hfragment f rfl).1
  have hsays := parseTarget_query (renderParams params ++ marked 35 fragment) hpath
  rw [before_of_not_mem htext, before_append hsharp, behind_append hsharp] at hsays
  have hquery : renderParams params ++ before 35 (marked 35 fragment) = renderParams params := by
    cases fragment <;> simp [before]
  have hend : before 35 (behind 35 (marked 35 fragment)) = fragment.getD [] := by
    cases fragment with
    | none => rfl
    | some f => simpa using before_of_not_mem (hfragment f rfl).2
  rw [hquery, hend] at hsays
  obtain ⟨hmPath, hfind, hmFragment⟩ := hsays
  refine ⟨hmPath, ?_, hmFragment⟩
  intro key
  exact (hfind key).trans (lastValue_renderParams (hparams.mono (by simp)) key)

/-- A key that stands twice, an empty value and an empty key. -/
theorem parse_target_inverts_the_rendering_of_a_lookup :
    (({} : URI).parseTarget (renderTarget (ascii "/lookup")
        [(ascii "hash", ascii "0f"), (ascii "hash", []), ([], ascii "1")] (some (ascii "top"))
        )).mPath = ascii "/lookup" ∧
      (∀ key, (({} : URI).parseTarget (renderTarget (ascii "/lookup")
        [(ascii "hash", ascii "0f"), (ascii "hash", []), ([], ascii "1")] (some (ascii "top"))
        )).find key =
          [(ascii "hash", ascii "0f"), (ascii "hash", []), ([], ascii "1")].reverse.lookup key) ∧
      (({} : URI).parseTarget (renderTarget (ascii "/lookup")
        [(ascii "hash", ascii "0f"), (ascii "hash", []), ([], ascii "1")] (some (ascii "top"))
        )).mFragment = ascii "top" := by
  refine parse_target_inverts_the_rendering (by decide) ?_ ?_
  · unfold Free
    decide +kernel
  · decide

end URI

end webservice
