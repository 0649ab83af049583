import Inclusion.Proofs.Pattern

/-!
# Patterns as readers

In most patterns the next character decides: what stands behind a run or behind an optional part
cannot start with what these take, so a shorter run or a part left out leads nowhere. The parts of
such a pattern are taken one after the other and none is given back, as a reader does it that never
looks further than one character ahead.

* `Pattern.ways_eq_nil`: a pattern that a character cannot open has no way from there.
* `Pattern.Reads.run`, `Pattern.Reads.skip`: where the next character decides, nothing is given back.
* `Pattern.Reads.match?_eq`: the preferred match of a text is what the reader makes of it.
-/
namespace Inclusion.Text.Pattern

variable {κ : Type}

/-! ### The character that a pattern starts with -/

/-- Whether a pattern may take nothing although a character lies ahead. -/
@[simp] def passes : Pattern κ → Bool
  | nothing | edge | run _ | optional _ => true
  | one _ | finish => false
  | word text => text.toList.isEmpty
  | either p q => p.passes || q.passes
  | seq p q => p.passes && q.passes
  | keep _ p => p.passes

/-- Whether a pattern may take a character first. -/
@[simp] def takes (c : Char) : Pattern κ → Bool
  | nothing | edge | finish => false
  | one test | run test => test c
  | word text => text.toList.head?.any (c == ·)
  | optional p | keep _ p => takes c p
  | either p q => takes c p || takes c q
  | seq p q => takes c p || (p.passes && takes c q)

/-- Whether a pattern may go on where a character lies ahead. -/
def opens (c : Char) (p : Pattern κ) : Bool := p.passes || takes c p

/-- A run of one character at least, kept under a key. -/
def keepRun (key : κ) (test : Char → Bool) : Pattern κ := keep key (chain [one test, run test])

variable {isWord : Char → Bool} {p q : Pattern κ} {ps : List (Pattern κ)} {s t : Position κ}
  {test : Char → Bool} {c : Char} {rest : List Char}

/-- If what comes next cannot go on in front of a character of a run, then the run ends behind the
last one. -/
theorem flatMap_runEnds {next : Position κ → List (Position κ)}
    (hnext : ∀ (t : Position κ) c rest, t.rest = c :: rest → test c = true → next t = [])
    (kept : κ → Option (List Char)) (before rest : List Char) :
    (Position.runEnds test kept before rest).flatMap next
      = next ⟨before ++ rest.takeWhile test, rest.dropWhile test, kept⟩ := by
  induction rest generalizing before with
  | nil => simp [Position.runEnds]
  | cons c rest ih =>
    rw [Position.runEnds]
    by_cases hc : test c = true
    · simp [hc, ih, hnext ⟨before, c :: rest, kept⟩ c rest rfl hc]
    · simp [hc]

@[simp] theorem passes_chain_cons :
    (chain (p :: ps)).passes = (p.passes && (chain ps).passes) := rfl

@[simp] theorem takes_chain_cons :
    takes c (chain (p :: ps)) = (takes c p || (p.passes && takes c (chain ps))) := rfl

@[simp] theorem takes_chain_nil : takes c (chain ([] : List (Pattern κ))) = false := rfl

@[simp] theorem opens_chain_nil : opens c (chain ([] : List (Pattern κ))) = true := rfl

@[simp] theorem opens_chain_cons :
    opens c (chain (p :: ps)) = (takes c p || (p.passes && opens c (chain ps))) := by
  rw [opens, opens, passes_chain_cons, takes_chain_cons]
  cases p.passes <;> simp [Bool.or_left_comm]

@[simp] theorem passes_keepRun (key : κ) : (keepRun key test).passes = false := rfl

@[simp] theorem takes_keepRun (key : κ) : takes c (keepRun key test) = test c := by
  simp [keepRun]

/-- A word is not opened by what its first character is not. -/
theorem opens_word_eq_false {text : String} (hc : test c = true)
    (htext : text.toList.head?.any (!test ·) = true) : opens c (chain (word text :: ps)) = false := by
  obtain ⟨d, hd, hnot⟩ := (Option.any_eq_true _ _).mp htext
  have hne : ¬c = d := by
    rintro rfl
    simp [hc] at hnot
  obtain ⟨cs, hcs⟩ := List.head?_eq_some_iff.mp hd
  simp [hcs, hne]

variable [DecidableEq κ]

theorem passes_or_takes (h : t ∈ p.ways isWord s) (hs : s.rest = c :: rest) :
    p.passes = true ∧ t.rest = c :: rest ∨ takes c p = true := by
  induction p generalizing s t with
  | nothing =>
    obtain rfl := List.mem_singleton.mp h
    exact .inl ⟨rfl, hs⟩
  | one test =>
    rw [ways_one, hs] at h
    dsimp only at h
    split at h
    next hc => exact .inr hc
    next => cases h
  | word text =>
    rw [ways_word] at h
    split at h
    next rest' hrest =>
      obtain rfl := List.mem_singleton.mp h
      have heq := after?_eq_some_iff.mp hrest
      cases htext : text.toList with
      | nil =>
        refine .inl ⟨by simp [passes, htext], ?_⟩
        rw [htext, List.nil_append] at heq
        exact heq.symm.trans hs
      | cons d word =>
        rw [hs, htext, List.cons_append, List.cons.injEq] at heq
        exact .inr (by simp [takes, htext, heq.1])
    next => cases h
  | edge =>
    obtain ⟨rfl, -⟩ := mem_ways_edge.mp h
    exact .inl ⟨rfl, hs⟩
  | finish =>
    obtain ⟨-, hend⟩ := mem_ways_finish.mp h
    rw [hs] at hend
    cases hend
  | run test =>
    by_cases hc : test c = true
    · exact .inr hc
    · change t ∈ Position.runEnds test s.kept s.before s.rest at h
      rw [hs, Position.runEnds, if_neg hc] at h
      obtain rfl := List.mem_singleton.mp h
      exact .inl ⟨rfl, rfl⟩
  | optional p ih =>
    rcases List.mem_append.mp h with h | h
    · exact (ih h hs).imp_left fun hp => ⟨rfl, hp.2⟩
    · obtain rfl := List.mem_singleton.mp h
      exact .inl ⟨rfl, hs⟩
  | either p q ihp ihq =>
    rcases List.mem_append.mp h with h | h
    · exact (ihp h hs).imp (.imp_left fun hp => by simp [passes, hp]) fun hp => by simp [takes, hp]
    · exact (ihq h hs).imp (.imp_left fun hq => by simp [passes, hq]) fun hq => by simp [takes, hq]
  | seq p q ihp ihq =>
    obtain ⟨u, hu, ht⟩ := List.mem_flatMap.mp h
    rcases ihp hu hs with ⟨hp, hrest⟩ | hp
    · exact (ihq ht hrest).imp (.imp_left fun hq => by simp [passes, hp, hq])
        fun hq => by simp [takes, hp, hq]
    · exact .inr (by simp [takes, hp])
  | keep key p ih =>
    obtain ⟨u, hu, rfl⟩ := List.mem_map.mp h
    exact ih (t := u) hu hs

/-- A pattern that a character cannot open has no way from where it lies ahead. -/
theorem ways_eq_nil (hs : s.rest = c :: rest) (hc : opens c p = false) : p.ways isWord s = [] := by
  refine List.eq_nil_iff_forall_not_mem.mpr fun t ht => ?_
  rcases passes_or_takes ht hs with ⟨hp, -⟩ | hp <;> simp [opens, hp] at hc

/-! ### Readers -/

/-- Whether the preferred match of a chain is what a reader makes of the text ahead: what it keeps,
on top of what was kept before. -/
def Reads (isWord : Char → Bool) (ps : List (Pattern κ))
    (read : List Char → Option (κ → Option (List Char))) : Prop :=
  ∀ s, ((chain ps).first? isWord s).map Position.kept
    = (read s.rest).map fun kept key => (kept key).or (s.kept key)

/-- What is kept when one text is. -/
def only (key : κ) (text : List Char) : κ → Option (List Char) :=
  fun k => if k = key then some text else none

theorem first?_chain_of_ways (h : p.ways isWord s = [t]) :
    (chain (p :: ps)).first? isWord s = (chain ps).first? isWord t := by
  rw [first?, ways_chain_cons, h, List.flatMap_singleton, first?]

theorem first?_chain_eq_none (h : p.ways isWord s = []) :
    (chain (p :: ps)).first? isWord s = none := by
  rw [first?, ways_chain_cons, h, List.flatMap_nil, List.head?_nil]

namespace Reads

variable {read read₁ read₂ : List Char → Option (κ → Option (List Char))}

/-- What a pattern keeps if it is matched from the start of a text. -/
theorem match?_eq (h : Reads isWord ps read) (cs : List Char) :
    (chain ps).match? isWord cs = read cs := by
  refine (h (.start cs)).trans ?_
  have hid : (fun (kept : κ → Option (List Char)) key =>
      (kept key).or ((Position.start cs).kept key)) = id := by
    funext kept key
    exact Option.or_none
  rw [hid, Option.map_id]
  rfl

theorem eq_none_of_opens (h : Reads isWord ps read) (hc : opens c (chain ps) = false)
    (cs : List Char) : read (c :: cs) = none := by
  have hmatch := h.match?_eq (c :: cs)
  rw [match?, first?, ways_eq_nil (s := .start (c :: cs)) rfl hc] at hmatch
  exact hmatch.symm

theorem finish : Reads isWord [(.finish : Pattern κ)] fun cs =>
    if cs = [] then some fun _ => none else none := by
  intro s
  dsimp only
  by_cases hs : s.rest = []
  · rw [first?_chain_of_ways (t := s) (by rw [ways_finish, if_pos hs]), if_pos hs]
    rfl
  · rw [first?_chain_eq_none (by rw [ways_finish, if_neg hs]), if_neg hs]
    rfl

theorem word (h : Reads isWord ps read) (text : String) :
    Reads isWord (.word text :: ps) fun cs => (after? text cs).bind read := by
  intro s
  dsimp only
  cases hrest : after? text s.rest with
  | none => rw [first?_chain_eq_none (by rw [ways_word, hrest])]; rfl
  | some rest => rw [first?_chain_of_ways (by rw [ways_word, hrest])]; exact h _

/-- An edge behind a word character is no start of a word. -/
theorem wordEdge (h : Reads isWord ps read) {text : String}
    (htext : text.toList.getLast?.any isWord = true) :
    Reads isWord (.word text :: .edge :: ps) fun cs =>
      (after? text cs).bind fun cs => if cs.head?.any isWord then none else read cs := by
  intro s
  dsimp only
  cases hrest : after? text s.rest with
  | none => rw [first?_chain_eq_none (by rw [ways_word, hrest])]; rfl
  | some rest =>
    rw [first?_chain_of_ways (by rw [ways_word, hrest]), Option.bind_some]
    obtain ⟨c, hc, hword⟩ := (Option.any_eq_true _ _).mp htext
    have hedge : (s.past text.toList rest).isEdge isWord = !rest.head?.any isWord := by
      simp [Position.isEdge, Position.past, List.getLast?_append, hc, hword]
    by_cases hhead : rest.head?.any isWord = true
    · rw [first?_chain_eq_none (by simp [ways_edge, hedge, hhead]), if_pos hhead]
      rfl
    · rw [first?_chain_of_ways (t := s.past text.toList rest) (by simp [ways_edge, hedge, hhead]),
        if_neg hhead]
      exact h _

theorem one (h : Reads isWord ps read) (test : Char → Bool) :
    Reads isWord (.one test :: ps) fun
      | [] => none
      | c :: cs => if test c then read cs else none := by
  intro s
  cases hs : s.rest with
  | nil => rw [first?_chain_eq_none (by rw [ways_one, hs])]; rfl
  | cons c rest =>
    by_cases hc : test c = true
    · rw [first?_chain_of_ways (t := s.past [c] rest) (by simp [ways_one, hs, hc])]
      dsimp only
      rw [if_pos hc]
      exact h _
    · rw [first?_chain_eq_none (by simp [ways_one, hs, hc])]
      dsimp only
      rw [if_neg hc]
      rfl

/-- Ways that are tried before others. -/
theorem or_of_ways {ps₁ ps₂ : List (Pattern κ)} (h₁ : Reads isWord ps₁ read₁)
    (h₂ : Reads isWord ps₂ read₂) (hways : ∀ s : Position κ,
      (chain ps).ways isWord s = (chain ps₁).ways isWord s ++ (chain ps₂).ways isWord s) :
    Reads isWord ps fun cs => (read₁ cs).or (read₂ cs) := by
  intro s
  rw [first?, hways, List.head?_append, Option.map_or, Option.map_or]
  exact congr (congrArg Option.or (h₁ s)) (h₂ s)

theorem either (hp : Reads isWord (p :: ps) read₁) (hq : Reads isWord (q :: ps) read₂) :
    Reads isWord (.either p q :: ps) fun cs => (read₁ cs).or (read₂ cs) :=
  or_of_ways hp hq fun s => by
    rw [ways_chain_cons, ways_either, List.flatMap_append]
    rfl

theorem optional (hp : Reads isWord (p :: ps) read₁) (h : Reads isWord ps read₂) :
    Reads isWord (.optional p :: ps) fun cs => (read₁ cs).or (read₂ cs) :=
  or_of_ways hp h fun s => by
    rw [ways_chain_cons, ways_optional, List.flatMap_append, List.flatMap_singleton]
    rfl

/-- A chain inside a chain. -/
theorem inner (qs : List (Pattern κ)) (h : Reads isWord (qs ++ ps) read) :
    Reads isWord (chain qs :: ps) read := by
  have hways : ∀ s : Position κ,
      (chain (chain qs :: ps)).ways isWord s = (chain (qs ++ ps)).ways isWord s := by
    clear h
    induction qs with
    | nil => intro s; exact List.append_nil _
    | cons q qs ih =>
      intro s
      rw [ways_chain_cons, ways_chain_cons, List.flatMap_assoc, List.cons_append, ways_chain_cons]
      exact congrArg (List.flatMap · _) (funext ih)
  intro s
  rw [first?, hways]
  exact h s

/-- A run in front of what cannot start with one of its characters. -/
theorem run (h : Reads isWord ps read) (test : Char → Bool)
    (htest : ∀ c, test c = true → opens c (chain ps) = false) :
    Reads isWord (.run test :: ps) fun cs => read (cs.dropWhile test) := by
  intro s
  have hways : (chain (.run test :: ps)).ways isWord s
      = (chain ps).ways isWord (s.past (s.rest.takeWhile test) (s.rest.dropWhile test)) :=
    flatMap_runEnds (fun t c rest ht hc => ways_eq_nil ht (htest c hc)) s.kept s.before s.rest
  rw [first?, hways]
  exact h (s.past (s.rest.takeWhile test) (s.rest.dropWhile test))

/-- An optional character in front of what cannot start with it. -/
theorem skip (h : Reads isWord ps read) (test : Char → Bool)
    (htest : ∀ c, test c = true → opens c (chain ps) = false) :
    Reads isWord (.optional (.one test) :: ps) fun cs => read (skipOne test cs) := by
  intro s
  rw [(h.one test).optional h s]
  cases s.rest with
  | nil => rfl
  | cons c cs =>
    by_cases hc : test c = true
    · simp [skipOne, hc, h.eq_none_of_opens (htest c hc)]
    · simp [skipOne, hc]

/-- A run of one character at least that is kept. -/
theorem keepRun (h : Reads isWord ps read) (key : κ) (test : Char → Bool)
    (htest : ∀ c, test c = true → opens c (chain ps) = false) :
    Reads isWord (.keepRun key test :: ps) fun cs =>
      if cs.takeWhile test = [] then none
      else (read (cs.dropWhile test)).map fun kept k =>
        (kept k).or (only key (cs.takeWhile test) k) := by
  intro s
  have hchain : (chain [.one test, .run test]).ways isWord s = match s.rest with
      | [] => []
      | c :: rest => if test c then Position.runEnds test s.kept (s.before ++ [c]) rest else [] := by
    rw [ways_chain_cons, ways_one]
    cases s.rest with
    | nil => rfl
    | cons c rest =>
      by_cases hc : test c = true
      · simp only [hc, ↓reduceIte, List.flatMap_singleton]
        exact List.flatMap_singleton' _
      · simp [hc]
  rw [first?, ways_chain_cons, Pattern.keepRun, ways_keep, hchain, List.flatMap_map]
  cases hs : s.rest with
  | nil => simp
  | cons c rest =>
    by_cases hc : test c = true
    · let next (t : Position κ) :=
        (chain ps).ways isWord (t.keep key (t.before.drop s.before.length))
      have hnext : ∀ (t : Position κ) c rest, t.rest = c :: rest → test c = true → next t = [] :=
        fun t c rest ht hc => ways_eq_nil ht (htest c hc)
      have hends := flatMap_runEnds hnext s.kept (s.before ++ [c]) rest
      have htext : (s.before ++ [c] ++ rest.takeWhile test).drop s.before.length
          = c :: rest.takeWhile test := by simp
      dsimp only [next] at hends ⊢
      rw [htext] at hends
      rw [if_pos hc, hends, List.takeWhile_cons, if_pos hc, List.dropWhile_cons, if_pos hc,
        if_neg (List.cons_ne_nil _ _), Option.map_map]
      refine (h _).trans (congrArg (Option.map · _) ?_)
      funext kept k
      rw [Function.comp_apply, Option.or_assoc]
      by_cases hk : k = key <;> simp [Position.keep, only, hk]
    · simp [hc]

end Reads

end Inclusion.Text.Pattern
