import NoncesHeatmap.Base.Tokens

/-! # Expansion, one variable after the other

A placeholder is unbordered, so the loop of a variable replaces all its occurrences. After it the text is
the original one with the matches of the variables so far replaced, exactly if these were all the
occurrences that the loop met. The code takes the variables in the order of their map; the expansion is
simultaneous if every order gives the same. -/

namespace NoncesHeatmap.Env
open Words
set_option autoImplicit false

/-! ## The map of the variables -/

theorem mem_addVar {env : Env} {vars : List (Bytes × Option Bytes)} {name : Bytes} {kv : Bytes × Option Bytes} :
    kv ∈ env.addVar vars name ↔
      kv ∈ vars ∨ (placeholder name ∉ vars.map Prod.fst ∧ kv = (placeholder name, env.get name)) := by
  rw [addVar]
  split
  · next h => exact (or_iff_left fun hnew => hnew.1 h).symm
  · next h =>
    rw [(List.perm_orderedInsert _ _ _).mem_iff, List.mem_cons]
    constructor
    · rintro (rfl | hkv)
      · exact Or.inr ⟨h, rfl⟩
      · exact Or.inl hkv
    · rintro (hkv | ⟨-, rfl⟩)
      · exact Or.inr hkv
      · exact Or.inl rfl

theorem nodup_addVar {env : Env} {vars : List (Bytes × Option Bytes)} (h : (vars.map Prod.fst).Nodup) (name : Bytes) :
    ((env.addVar vars name).map Prod.fst).Nodup := by
  rw [addVar]
  split
  · exact h
  · next hnew =>
    rw [((List.perm_orderedInsert _ _ _).map Prod.fst).nodup_iff]
    exact List.nodup_cons.mpr ⟨hnew, h⟩

theorem nodup_vars (env : Env) (text : Bytes) : ((env.vars text).map Prod.fst).Nodup := by
  rw [vars]
  generalize matched text = names
  induction names using List.reverseRecOn with
  | nil => exact List.nodup_nil
  | append_singleton names name ih =>
    rw [List.foldl_append]
    exact nodup_addVar ih name

/-- The keys of the map are the placeholders that are matched, and its values are those of `get`. -/
theorem mem_vars {env : Env} {text : Bytes} {kv : Bytes × Option Bytes} :
    kv ∈ env.vars text ↔ ∃ name ∈ matched text, kv = (placeholder name, env.get name) := by
  rw [vars]
  generalize matched text = names
  induction names using List.reverseRecOn generalizing kv with
  | nil => simp
  | append_singleton names name ih =>
    rw [List.foldl_append, List.foldl_cons, List.foldl_nil, mem_addVar, ih]
    constructor
    · rintro (⟨name', hname', rfl⟩ | ⟨-, rfl⟩)
      · exact ⟨name', List.mem_append_left _ hname', rfl⟩
      · exact ⟨name, List.mem_append_right _ (List.mem_singleton_self name), rfl⟩
    · rintro ⟨name', hname', rfl⟩
      obtain hname' | hname' := List.mem_append.mp hname'
      · exact Or.inl ⟨name', hname', rfl⟩
      · obtain rfl := List.mem_singleton.mp hname'
        by_cases hold : placeholder name' ∈ (names.foldl env.addVar []).map Prod.fst
        · obtain ⟨kv, hkv, hkey⟩ := List.mem_map.mp hold
          obtain ⟨other, hother, rfl⟩ := ih.mp hkv
          obtain rfl := placeholder_injective hkey
          exact Or.inl ⟨_, hother, rfl⟩
        · exact Or.inr ⟨hold, rfl⟩

/-! ## The loop of a variable -/

theorem replace_middle (pre var value post : Bytes) :
    replace (pre ++ (var ++ post)) pre.length var.length value = pre ++ (value ++ post) := by
  have hdrop : (pre ++ (var ++ post)).drop (pre.length + var.length) = post := by
    rw [← List.append_assoc, ← List.length_append]
    exact List.drop_left
  rw [replace, hdrop, List.take_left]

/-- A loop that has room for its rounds replaces every occurrence from its position on. -/
theorem replaceLoop_eq {var : Bytes} (hvar : var ≠ []) (value : Bytes) {n : ℕ} (done : Bytes) {rest : Bytes}
    (h : rest.length < n) : replaceLoop var value n (done ++ rest) done.length = done ++ replaceAll var value rest := by
  induction n generalizing done rest with
  | zero => exact absurd h (Nat.not_lt_zero _)
  | succ n ih =>
    have hdrop : (done ++ rest).drop done.length = rest := List.drop_left
    rw [replaceLoop, find, hdrop]
    cases hfind : Words.find var rest with
    | none =>
      rw [replaceAll_of_find_none value hfind]
      rfl
    | some i =>
      obtain ⟨x, y, rfl, rfl, hreplace⟩ := replaceAll_of_find_some hvar value hfind
      have htext : replace (done ++ (x ++ var ++ y)) (done.length + x.length) var.length value = done ++ x ++ value ++ y := by
        have hmiddle := replace_middle (done ++ x) var value y
        rw [List.length_append] at hmiddle
        simpa using hmiddle
      have hpos : done.length + x.length + value.length = (done ++ x ++ value).length := by simp [Nat.add_assoc]
      have hshort : y.length < n := by
        have := List.length_pos_of_ne_nil hvar
        simp only [List.length_append] at h
        omega
      show replaceLoop var value n (replace _ (done.length + x.length) _ _) _ = _
      rw [htext, hpos, ih (done ++ x ++ value) hshort, hreplace]
      simp

theorem replaceVar_some {var : Bytes} (hvar : var ≠ []) (text value : Bytes) :
    replaceVar text (var, some value) = replaceAll var value text :=
  replaceLoop_eq hvar value [] (Nat.lt_succ_self _)

/-! ## What a variable changes -/

/-- A text as the loop of a variable meets it: the matches of the variable are marked. -/
def pieces (values : Bytes → Option Bytes) (name text : Bytes) : List (Option Bytes) :=
  (scan text).map fun token => if token = .placeholder name then none else some (render values token)

theorem marks_pieces (values : Bytes → Option Bytes) (name text : Bytes) :
    marks (pieces values name text) = (matched text).count name := by
  rw [pieces, matched]
  induction scan text with
  | nil => rfl
  | cons token tokens ih =>
    rw [List.map_cons]
    cases token with
    | char c => rw [if_neg Token.noConfusion, marks_some, ih, List.filterMap_cons_none rfl]
    | placeholder other =>
      rw [List.filterMap_cons_some (show group (.placeholder other) = some other from rfl)]
      by_cases hother : other = name
      · subst hother
        rw [if_pos rfl, marks_none, ih, List.count_cons_self]
      · rw [if_neg (fun h => hother (Token.placeholder.inj h)), marks_some, ih, List.count_cons_of_ne hother]

theorem fill_pieces (values : Bytes → Option Bytes) (name u text : Bytes) :
    fill u (pieces values name text) = substitute (Function.update values name (some u)) text := by
  rw [pieces, substitute]
  induction scan text with
  | nil => rfl
  | cons token tokens ih =>
    rw [List.map_cons, List.flatMap_cons]
    by_cases hmatch : token = .placeholder name
    · subst hmatch
      rw [if_pos rfl, fill, ih, render, Function.update_self, Option.getD_some]
    · rw [if_neg hmatch, fill, ih]
      cases token with
      | char c => rfl
      | placeholder other =>
        have hother : other ≠ name := fun h => hmatch (congrArg _ h)
        rw [render, render, Function.update_of_ne hother]

theorem substitute_congr {values values' : Bytes → Option Bytes}
    (h : ∀ name, (values name).getD (placeholder name) = (values' name).getD (placeholder name)) (text : Bytes) :
    substitute values text = substitute values' text := by
  have hrender : render values = render values' := by
    funext token
    cases token with
    | char c => rfl
    | placeholder name => exact h name
  rw [substitute, hrender, substitute]

/-- Before its loop, the matches of a variable stand in the text as they are. -/
theorem substitute_before {env : Env} {done : List Bytes} {name : Bytes} (hnew : placeholder name ∉ done) (text : Bytes) :
    substitute (env.valuesOf done) text = fill (placeholder name) (pieces (env.valuesOf done) name text) := by
  rw [fill_pieces]
  refine substitute_congr (fun other => ?_) text
  by_cases hother : other = name
  · subst hother
    rw [valuesOf, if_neg hnew, Function.update_self, Option.getD_none, Option.getD_some]
  · rw [Function.update_of_ne hother]

theorem substitute_after (env : Env) (done : List Bytes) (name text : Bytes) :
    substitute (env.valuesOf (done ++ [placeholder name])) text =
      fill ((env.value name).getD (placeholder name)) (pieces (env.valuesOf done) name text) := by
  rw [fill_pieces]
  refine substitute_congr (fun other => ?_) text
  by_cases hother : other = name
  · subst hother
    rw [valuesOf, if_pos (List.mem_append_right _ (List.mem_singleton_self _)), Function.update_self, Option.getD_some]
  · have hkey : placeholder other ≠ placeholder name := placeholder_injective.ne hother
    rw [Function.update_of_ne hother, valuesOf, valuesOf]
    simp [hkey]

/-! ## Simultaneous substitution -/

/-- `get` finds the value of a variable, or nothing where the value is empty. -/
theorem get_cases (env : Env) (name : Bytes) :
    env.get name = env.value name ∨ env.get name = none ∧ env.value name = some [] := by
  unfold Env.get Env.value
  generalize (createVariables env.builtins).find (ofCString name) = builtin
  generalize env.extra.find (ofCString name) = extra
  generalize env.getenv name = fromEnv
  have htable : ∀ s : Option Bytes, s = some (s.getD []) ∨ s = none ∧ some (s.getD []) = some [] := by
    intro s
    cases s with
    | none => exact Or.inr ⟨rfl, rfl⟩
    | some s => exact Or.inl rfl
  cases builtin with
  | some s => exact htable s
  | none =>
    cases extra with
    | some s => exact htable s
    | none =>
      cases fromEnv with
      | none => exact Or.inl rfl
      | some s =>
        by_cases hempty : s = []
        · subst hempty
          exact Or.inr ⟨rfl, rfl⟩
        · exact Or.inl (if_neg hempty)

/-- A variable whose placeholder occurs only where it is matched, in the text with the variables of `done`
replaced, and that has a value for the code if it is defined. -/
structure Separate (env : Env) (text : Bytes) (done : List Bytes) (name : Bytes) : Prop where
  defined : env.get name = env.value name
  occurrences : ∀ value, env.get name = some value → value = placeholder name ∨
    count (placeholder name) (substitute (env.valuesOf done) text) = (matched text).count name

theorem replaceVar_iff {env : Env} {text : Bytes} {done : List Bytes} {name : Bytes} (hmatched : name ∈ matched text)
    (hnew : placeholder name ∉ done) :
    replaceVar (substitute (env.valuesOf done) text) (placeholder name, env.get name) =
        substitute (env.valuesOf (done ++ [placeholder name])) text ↔
      Separate env text done name := by
  have hclosed : 125 ∉ name := ((scans_scan text).match_mem (mem_matched.mp hmatched)).2.1
  have hunbordered := unbordered_placeholder hclosed
  have hbefore : substitute (env.valuesOf done) text = fill (placeholder name) (pieces (env.valuesOf done) name text) :=
    substitute_before hnew text
  have hafter := substitute_after env done name text
  have hmarks := marks_pieces (env.valuesOf done) name text
  cases hget : env.get name with
  | some value =>
    have hvalue : env.value name = some value := by
      obtain h | ⟨h, -⟩ := get_cases env name
      · rw [← h, hget]
      · rw [hget] at h
        cases h
    rw [hvalue, Option.getD_some] at hafter
    rw [hafter, replaceVar_some hunbordered.ne_nil, hbefore, hunbordered.replaceAll_fill_iff, hmarks, ← hbefore]
    constructor
    · intro h
      refine ⟨hget.trans hvalue.symm, fun value' hvalue' => ?_⟩
      obtain rfl := Option.some.inj (hget.symm.trans hvalue')
      exact h
    · intro h
      exact h.occurrences value hget
  | none =>
    show substitute (env.valuesOf done) text = _ ↔ _
    obtain h | ⟨-, hempty⟩ := get_cases env name
    · have hvalue : env.value name = none := h.symm.trans hget
      rw [hvalue] at hafter
      refine iff_of_true (hbefore.trans hafter.symm) ⟨h, fun value hvalue' => ?_⟩
      rw [hget] at hvalue'
      cases hvalue'
    · -- The placeholder of an empty value is not removed.
      have hmarked : 0 < marks (pieces (env.valuesOf done) name text) := hmarks ▸ List.count_pos_iff.mpr hmatched
      rw [hempty, Option.getD_some] at hafter
      rw [hbefore, hafter]
      refine iff_of_false (fill_ne_fill_nil hunbordered.ne_nil hmarked) fun h => ?_
      have hdefined := h.defined
      rw [hget, hempty] at hdefined
      cases hdefined

/-! ## The whole expansion -/

/-- The result is that of one pass, it does not depend on the order of the variables, and in every order the text
after each variable is the original one in which the matches of the variables so far are replaced, and nothing else. -/
structure Simultaneous (env : Env) (text : Bytes) : Prop where
  result : env.expand (some text) = ofCString (substitute env.value text)
  order : ∀ vars, (env.vars text).Perm vars → ofCString (vars.foldl replaceVar text) = env.expand (some text)
  steps : ∀ done rest, (env.vars text).Perm (done ++ rest) →
    done.foldl replaceVar text = substitute (env.valuesOf (done.map Prod.fst)) text

theorem substitute_none (env : Env) (text : Bytes) : substitute (env.valuesOf []) text = text := by
  have hvalues : env.valuesOf [] = fun _ => none := by
    funext name
    exact if_neg List.not_mem_nil
  rw [hvalues]
  exact (scans_scan text).flatMap_render

/-- All variables that are matched are in the map. -/
theorem substitute_vars {env : Env} {text : Bytes} {vars : List (Bytes × Option Bytes)} (h : (env.vars text).Perm vars) :
    substitute (env.valuesOf (vars.map Prod.fst)) text = substitute env.value text := by
  rw [substitute, substitute]
  refine List.flatMap_congr fun token htoken => ?_
  cases token with
  | char c => rw [render, render]
  | placeholder name =>
    have hmem : placeholder name ∈ vars.map Prod.fst :=
      List.mem_map.mpr ⟨_, h.mem_iff.mp (mem_vars.mpr ⟨name, mem_matched.mpr htoken, rfl⟩), rfl⟩
    rw [render, render, valuesOf, if_pos hmem]

/-- A text of less than four characters has no match. -/
theorem vars_short (env : Env) {text : Bytes} (h : text.length < 4) : env.vars text = [] := by
  rw [List.eq_nil_iff_forall_not_mem]
  intro kv hkv
  obtain ⟨name, hname, -⟩ := mem_vars.mp hkv
  obtain ⟨hne, -, hin⟩ := (scans_scan text).match_mem (mem_matched.mp hname)
  have hle := hin.length_le
  have := List.length_pos_of_ne_nil hne
  simp only [placeholder, List.length_cons, List.length_append, List.length_nil] at hle
  omega

theorem expand_some (env : Env) (text : Bytes) :
    env.expand (some text) = ofCString ((env.vars text).foldl replaceVar text) := by
  rw [expand]
  split
  · next hshort =>
    rw [vars_short env hshort]
    rfl
  · rfl

/-- The variables before an entry of the map, in any order. -/
theorem vars_split {env : Env} {text : Bytes} {done rest : List (Bytes × Option Bytes)} {kv : Bytes × Option Bytes}
    (h : (env.vars text).Perm (done ++ kv :: rest)) :
    ∃ name ∈ matched text, kv = (placeholder name, env.get name) ∧ placeholder name ∉ done.map Prod.fst := by
  have hmem : kv ∈ env.vars text := h.mem_iff.mpr (List.mem_append_right _ List.mem_cons_self)
  obtain ⟨name, hname, rfl⟩ := mem_vars.mp hmem
  refine ⟨name, hname, rfl, fun hdone => ?_⟩
  have hnodup := (h.map Prod.fst).nodup_iff.mp (nodup_vars env text)
  rw [List.map_append, List.map_cons] at hnodup
  exact (List.nodup_append.mp hnodup).2.2 _ hdone _ List.mem_cons_self rfl

/-- In every order, the replacement of the variables leaves the text as one pass over the variables so far would. -/
theorem simultaneous_iff (env : Env) (text : Bytes) :
    Simultaneous env text ↔
      ∀ done name rest, (env.vars text).Perm (done ++ (placeholder name, env.get name) :: rest) →
        Separate env text (done.map Prod.fst) name := by
  constructor
  · intro h done name rest hsplit
    obtain ⟨name', hmatched, heq, hnew⟩ := vars_split hsplit
    obtain rfl := placeholder_injective (congrArg Prod.fst heq)
    have hbefore := h.steps done _ hsplit
    have hafter := h.steps (done ++ [(placeholder name, env.get name)]) rest (List.append_cons done _ rest ▸ hsplit)
    rw [List.foldl_append, List.foldl_cons, List.foldl_nil, hbefore, List.map_append, List.map_cons, List.map_nil] at hafter
    exact (replaceVar_iff hmatched hnew).mp hafter
  · intro h
    have hsteps : ∀ done rest, (env.vars text).Perm (done ++ rest) →
        done.foldl replaceVar text = substitute (env.valuesOf (done.map Prod.fst)) text := by
      intro done
      induction done using List.reverseRecOn with
      | nil =>
        intro rest _
        exact (substitute_none env text).symm
      | append_singleton done kv ih =>
        intro rest hsplit
        rw [List.append_assoc] at hsplit
        obtain ⟨name, hmatched, rfl, hnew⟩ := vars_split hsplit
        rw [List.foldl_append, List.foldl_cons, List.foldl_nil, ih _ hsplit, List.map_append, List.map_cons, List.map_nil]
        exact (replaceVar_iff hmatched hnew).mpr (h done name rest hsplit)
    -- All orders end with the text of the one pass, that of the map among them.
    have hall : ∀ vars, (env.vars text).Perm vars → vars.foldl replaceVar text = substitute env.value text := by
      intro vars hperm
      rw [hsteps vars [] (by rwa [List.append_nil]), substitute_vars hperm]
    have hresult : env.expand (some text) = ofCString (substitute env.value text) := by
      rw [expand_some, hall _ (List.Perm.refl _)]
    exact ⟨hresult, fun vars hperm => by rw [hall vars hperm, hresult], hsteps⟩

/-- The order of the map can be right where another one is not: `${A}` that comes from `B` is replaced only after it. -/
example :
    let text := placeholder (ascii "A") ++ placeholder (ascii "B")
    let env : Env :=
      { builtins := ⟨none, none, none, none, none, none, none, none, none⟩
        extra := .empty
        getenv := fun name => if name = ascii "A" then some (ascii "x") else some (placeholder (ascii "A")) }
    env.expand (some text) = ofCString (substitute env.value text) ∧
      (env.vars text).reverse.foldl replaceVar text = ascii "xx" := by
  decide +kernel

/-- The result alone can be right by chance: the value of `A` is expanded, and then put back by the value of `C`. -/
example :
    let text := ascii "$\x7bA\x7d $\x7bB\x7d $\x7bC\x7d"
    let env : Env :=
      { builtins := ⟨none, none, none, none, none, none, none, none, none⟩
        extra := .empty
        getenv := fun name =>
          if name = ascii "A" then some (ascii "$\x7bB\x7d\x7d")
          else if name = ascii "B" then some (ascii "$\x7bB$\x7bC")
          else if name = ascii "C" then some (ascii "\x7d\x7d") else none }
    env.expand (some text) = ofCString (substitute env.value text) ∧
      ((env.vars text).take 2).foldl replaceVar text ≠
        substitute (env.valuesOf [placeholder (ascii "A"), placeholder (ascii "B")]) text := by
  decide +kernel

/-! ## Plain values -/

/-- Every variable that is matched has a name without `$`, and a value, if it is defined, that is not empty and has
neither `$` nor `{`. -/
def Plain (env : Env) (text : Bytes) : Prop :=
  ∀ name ∈ matched text, 36 ∉ name ∧ ∀ value, env.value name = some value → value ≠ [] ∧ 36 ∉ value ∧ 123 ∉ value

theorem Plain.separate {env : Env} {text : Bytes} (h : Plain env text) {done : List Bytes} {name : Bytes}
    (hmatched : name ∈ matched text) (hnew : placeholder name ∉ done) : Separate env text done name := by
  obtain ⟨hne, hclosed, -⟩ := (scans_scan text).match_mem (mem_matched.mp hmatched)
  refine ⟨?_, fun value _ => Or.inr ?_⟩
  · obtain hget | ⟨-, hempty⟩ := get_cases env name
    · exact hget
    · exact absurd rfl ((h name hmatched).2 [] hempty).1
  · refine (scans_scan text).count_render (fun other hother => ?_) hne hclosed (if_neg hnew)
    obtain ⟨hdollar, hvalues⟩ := h other (mem_matched.mpr hother)
    refine ⟨hdollar, fun value hvalue => hvalues value ?_⟩
    rw [valuesOf] at hvalue
    split at hvalue
    · exact hvalue
    · cases hvalue

/-- **`Env::expand` is simultaneous substitution.** -/
theorem expand_simultaneous_iff (env : Env) (text : Bytes) :
    (Simultaneous env text ↔
        ∀ done name rest, (env.vars text).Perm (done ++ (placeholder name, env.get name) :: rest) →
          Separate env text (done.map Prod.fst) name) ∧
      (Plain env text → Simultaneous env text) := by
  refine ⟨simultaneous_iff env text, fun hplain => (simultaneous_iff env text).mpr ?_⟩
  intro done name rest hsplit
  obtain ⟨name', hmatched, heq, hnew⟩ := vars_split hsplit
  obtain rfl := placeholder_injective (congrArg Prod.fst heq)
  exact hplain.separate hmatched hnew

/-- `x${A}y` with the value `z` of `A`. -/
theorem expand_simultaneous_iff_plain :
    Simultaneous ⟨⟨none, none, none, none, none, none, none, none, none⟩, .empty, fun _ => some [122]⟩
      (120 :: (placeholder [65] ++ [121])) := by
  refine (expand_simultaneous_iff _ _).2 fun name hname => ?_
  have hmatched : matched (120 :: (placeholder [65] ++ [121])) = [[65]] := by decide
  rw [hmatched, List.mem_singleton] at hname
  subst hname
  have hvalue : Env.value ⟨⟨none, none, none, none, none, none, none, none, none⟩, .empty, fun _ => some [122]⟩ [65] =
      some [122] := by decide +kernel
  rw [hvalue]
  exact ⟨by decide, fun value heq => Option.some.inj heq ▸ by decide⟩

/-- `${A}${B}` with the values `${B}` of `A` and `x` of `B`, and `${A}` with an empty `A` in the environment. -/
theorem expanded_again :
    (let env : Env :=
        { builtins := ⟨none, none, none, none, none, none, none, none, none⟩
          extra := (StringMap.empty.insert (some [65]) (some (placeholder [66]))).insert (some [66]) (some [120])
          getenv := fun _ => none };
      env.expand (some (placeholder [65] ++ placeholder [66])) = some [120, 120] ∧
        substitute env.value (placeholder [65] ++ placeholder [66]) = placeholder [66] ++ [120] ∧
        ¬ Simultaneous env (placeholder [65] ++ placeholder [66])) ∧
      (let env : Env :=
          { builtins := ⟨none, none, none, none, none, none, none, none, none⟩
            extra := .empty
            getenv := fun name => if name = [65] then some [] else none };
        env.expand (some (placeholder [65])) = some (placeholder [65]) ∧ substitute env.value (placeholder [65]) = [] ∧
          ¬ Simultaneous env (placeholder [65])) := by
  refine ⟨⟨by decide +kernel, by decide +kernel, fun h => ?_⟩, by decide +kernel, by decide +kernel, fun h => ?_⟩
  · exact absurd h.result (by decide +kernel)
  · exact absurd h.result (by decide +kernel)

end NoncesHeatmap.Env
