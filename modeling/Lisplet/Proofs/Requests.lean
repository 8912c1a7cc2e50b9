import Lisplet.Proofs.Continuation

/-!
# Requests for more

A source that leaves a form open asks for more, again and again, until it is complete, faulty or
given an empty answer. This module says how many answers it takes: one for each request, and no
answer that it has not asked for. What the answers after those are makes no difference, so the
texts that a source goes on in are determined by the source and the answers to come.
-/

namespace Lisplet.Reader

variable {single : Bool} {s : State} {r : Reader}

/-! ## Answers to come -/

theorem conclude_answers (answers : List (Option String)) :
    conclude single s { r with answers } =
      ((conclude single s r).1, { (conclude single s r).2 with answers }) := by
  unfold conclude
  dsimp only
  split <;> rfl

theorem finish_answers (answers : List (Option String)) :
    finish single s { r with answers } =
      ((finish single s r).1, { (finish single s r).2 with answers }) := by
  unfold finish
  rw [leg_answers]
  generalize leg single s r = x
  obtain ⟨x, q⟩ := x
  cases x with
  | error e => rfl
  | ok t => exact conclude_answers answers

theorem asked_conclude : (conclude single s r).2.asked = r.asked := by
  unfold conclude
  split <;> rfl

theorem asked_finish : (finish single s r).2.asked = r.asked := by
  have hleg : (leg single s r).2.asked = r.asked := asked_leg
  unfold finish
  generalize leg single s r = x at hleg
  obtain ⟨x, q⟩ := x
  cases x with
  | error e => exact hleg
  | ok t => exact asked_conclude.trans hleg

/-- The text at hand is read to its end without a request, whatever the answers are. -/
def Quiet (s : State) (r : Reader) : Prop :=
  ∃ (x : Except Error (List Form)) (q : Reader), q.asked = r.asked ∧
    ∀ answers, resume false s r answers = (x, { q with answers })

/-- The text at hand leaves a form open, and there is a request. An empty answer, or none, is the
last one; a text is read on from where the request was made. -/
def Requesting (s : State) (r : Reader) : Prop :=
  ∃ (x : Except Error (List Form)) (p q : Reader) (t : State),
    p.asked.length = r.asked.length + 1 ∧ q.asked.length = r.asked.length + 1 ∧
    resume false s r [] = (x, { p with answers := [] }) ∧
    ∀ answer rest, resume false s r (answer :: rest) =
      if (answer.getD "").isEmpty then (x, { p with answers := rest })
      else resume false t (q.extend (answer.getD "")) rest

theorem resume_withAnswers (others answers : List (Option String)) :
    resume single s { r with answers := others } answers = resume single s r answers := by
  cases answers <;> rfl

/-- What one leg of reading does about the answers. -/
theorem quiet_or_requesting (s : State) (r : Reader) : Quiet s r ∨ Requesting s r := by
  have hasked : (leg false s r).2.asked = r.asked := asked_leg
  generalize hleg : leg false s r = x at hasked
  obtain ⟨x, q⟩ := x
  dsimp only at hasked
  cases x with
  | error e =>
    refine .inl ⟨.error e, q, hasked, fun answers => ?_⟩
    cases answers <;> rw [resume, leg_answers, hleg]
  | ok t =>
    by_cases hdone : t.unfinished.isNone = true
    · refine .inl ⟨(conclude false t q).1, (conclude false t q).2, asked_conclude.trans hasked, ?_⟩
      intro answers
      rw [← conclude_answers]
      cases answers <;>
      · rw [resume, leg_answers, hleg]
        exact if_pos hdone
    · have hlength : q.asking.asked.length = r.asked.length + 1 := by
        rw [← hasked]
        rfl
      -- An empty answer and none at all come to the same, but for the answers that are left.
      refine .inr ⟨(finish false t q.asking.exhaust).1, (finish false t q.asking.exhaust).2,
        q.asking, t, ?_, hlength, ?_, ?_⟩
      · rw [asked_finish]
        exact hlength
      · rw [← finish_answers, resume, leg_answers, hleg]
        exact if_neg hdone
      · intro answer rest
        rw [← finish_answers, resume, leg_answers, hleg]
        dsimp only
        rw [if_neg hdone]
        split
        · rfl
        · exact resume_withAnswers (r := q.asking.extend (answer.getD "")) rest rest

/-! ## Answers taken -/

/-- `taken` are the answers that a text has requested: as many as there are requests, of which only
the last may be empty. Where no more answers come there may be one more request. -/
structure Requested (s : State) (r : Reader) (taken : List (Option String)) (ended : Prop) :
    Prop where
  count : (resume false s r taken).2.asked.length = r.asked.length + taken.length ∨
    ended ∧ (resume false s r taken).2.asked.length = r.asked.length + taken.length + 1
  nonempty : ∀ answer ∈ taken.dropLast, (answer.getD "").isEmpty = false

theorem Requested.nil_of_quiet {q : Reader} {x : Except Error (List Form)} {ended : Prop}
    (hasked : q.asked = r.asked) (h : resume false s r [] = (x, { q with answers := [] })) :
    Requested s r [] ended := by
  refine ⟨.inl ?_, by simp⟩
  rw [h, ← hasked]
  rfl

theorem Requested.singleton {p : Reader} {x : Except Error (List Form)} {answer : Option String}
    {ended : Prop} (hasked : p.asked.length = r.asked.length + 1)
    (h : resume false s r [answer] = (x, { p with answers := [] })) :
    Requested s r [answer] ended := by
  refine ⟨.inl ?_, by simp⟩
  rw [h]
  exact hasked

theorem Requested.cons {q : Reader} {t : State} {answer : Option String}
    {taken : List (Option String)} {ended : Prop} (h : Requested t q taken ended)
    (hasked : q.asked.length = r.asked.length + 1) (htext : (answer.getD "").isEmpty = false)
    (hstep : resume false s r (answer :: taken) = resume false t q taken) :
    Requested s r (answer :: taken) ended := by
  refine ⟨?_, ?_⟩
  · rw [hstep, List.length_cons]
    rcases h.count with hcount | ⟨hended, hcount⟩
    · exact .inl (by omega)
    · exact .inr ⟨hended, by omega⟩
  · intro a ha
    cases taken with
    | nil => cases ha
    | cons b taken =>
      rw [List.dropLast_cons_cons] at ha
      rcases List.mem_cons.mp ha with rfl | ha
      · exact htext
      · exact h.nonempty a ha

/-- Of the answers to come, a first part is requested and the rest is left; the first part alone
would have been read with the same result. -/
theorem exists_requested (s : State) (r : Reader) (answers : List (Option String)) :
    ∃ (taken rest : List (Option String)) (x : Except Error (List Form)) (q : Reader),
      answers = taken ++ rest ∧ Requested s r taken (rest = []) ∧
      resume false s r taken = (x, { q with answers := [] }) ∧
      resume false s r answers = (x, { q with answers := rest }) := by
  -- The induction is on the answers; a text leads to a reader that has asked once more.
  induction answers generalizing s r with
  | nil =>
    rcases quiet_or_requesting s r with ⟨x, q, hasked, hresume⟩ | ⟨x, p, q, t, hp, -, hnil, -⟩
    · exact ⟨[], [], x, q, rfl, .nil_of_quiet hasked (hresume []), hresume [], hresume []⟩
    · refine ⟨[], [], x, p, rfl, ⟨.inr ⟨rfl, ?_⟩, by simp⟩, hnil, hnil⟩
      rw [hnil]
      exact hp
  | cons answer rest ih =>
    rcases quiet_or_requesting s r with ⟨x, q, hasked, hresume⟩ | ⟨x, p, q, t, hp, hq, -, hcons⟩
    · exact ⟨[], answer :: rest, x, q, rfl, .nil_of_quiet hasked (hresume []), hresume [],
        hresume _⟩
    · by_cases hempty : (answer.getD "").isEmpty = true
      · have hlast : ∀ rest, resume false s r (answer :: rest) = (x, { p with answers := rest }) :=
          fun rest => (hcons answer rest).trans (if_pos hempty)
        exact ⟨[answer], rest, x, p, rfl, .singleton hp (hlast []), hlast [], hlast rest⟩
      · have hstep : ∀ rest, resume false s r (answer :: rest) =
            resume false t (q.extend (answer.getD "")) rest :=
          fun rest => (hcons answer rest).trans (if_neg hempty)
        obtain ⟨taken, left, y, p', rfl, htaken, hfew, hall⟩ := ih t (q.extend (answer.getD ""))
        exact ⟨answer :: taken, left, y, p', rfl,
          htaken.cons hq (eq_false_of_ne_true hempty) (hstep taken), (hstep taken).trans hfew,
          (hstep _).trans hall⟩

/-- Answers after those that were requested are left alone. -/
theorem answers_resume_append {taken : List (Option String)}
    (h : (resume false s r taken).2.asked.length = r.asked.length + taken.length)
    (rest : List (Option String)) : (resume false s r (taken ++ rest)).2.answers = rest := by
  induction taken generalizing s r with
  | nil =>
    rcases quiet_or_requesting s r with ⟨x, q, -, hresume⟩ | ⟨x, p, q, t, hp, -, hnil, -⟩
    · rw [hresume]
      rfl
    · rw [hnil] at h
      have hnone : p.asked.length = r.asked.length := h
      omega
  | cons answer taken ih =>
    rcases quiet_or_requesting s r with ⟨x, q, hasked, hresume⟩ | ⟨x, p, q, t, hp, hq, -, hcons⟩
    · rw [hresume] at h
      have hmore : q.asked.length = r.asked.length + (taken.length + 1) := h
      rw [hasked] at hmore
      omega
    · rw [List.cons_append, hcons]
      rw [hcons] at h
      by_cases hempty : (answer.getD "").isEmpty = true
      · rw [if_pos hempty] at h ⊢
        have hone : p.asked.length = r.asked.length + (taken.length + 1) := h
        have htaken : taken = [] := List.length_eq_zero_iff.mp (by omega)
        subst htaken
        rfl
      · rw [if_neg hempty] at h ⊢
        apply ih
        have hlength : (q.extend (answer.getD "")).asked.length = r.asked.length + 1 := hq
        rw [h, hlength, List.length_cons]
        omega

-- So requested answers are a part of the answers to come that nothing else can be.
theorem Requested.answers_append {taken rest : List (Option String)}
    (h : Requested s r taken (rest = [])) : (resume false s r (taken ++ rest)).2.answers = rest := by
  rcases h.count with hcount | ⟨rfl, hcount⟩
  · exact answers_resume_append hcount rest
  · obtain ⟨taken', rest', x, q, happend, htaken', hfew, hall⟩ := exists_requested s r taken
    rw [List.append_nil, hall]
    rw [hall] at hcount
    rcases htaken'.count with hcount' | ⟨hnone, -⟩
    · -- All but one of the requests were answered, so there are no answers left.
      rw [hfew] at hcount'
      have hless : taken'.length ≤ taken.length := by
        rw [happend, List.length_append]
        omega
      have hq : q.asked.length = r.asked.length + taken'.length := hcount'
      have hq' : q.asked.length = r.asked.length + taken.length + 1 := hcount
      omega
    · exact hnone

/-! ## Sources -/

/-- `texts` are what a source goes on in: one text for each time that it is left open, of which only
the last may be empty. If the texts have ended, it may be left open once more. -/
structure Continues (source : String) (texts : List String) (ended : Prop) : Prop where
  requests : (ofSource source (texts.map some)).all.2.prompts.length = texts.length ∨
    ended ∧ (ofSource source (texts.map some)).all.2.prompts.length = texts.length + 1
  nonempty : ∀ text ∈ texts.dropLast, text ≠ ""

theorem all_ofSource (source : String) (answers : List (Option String)) :
    (ofSource source answers).all = resume false {} (ofSource source []) answers :=
  (resume_withAnswers (r := ofSource source answers) [] answers).symm

theorem continues_iff {source : String} {texts : List String} {ended : Prop} :
    Continues source texts ended ↔
      Requested {} (ofSource source []) (texts.map some) ended := by
  have hprompts : (ofSource source (texts.map some)).all.2.prompts.length =
      (resume false {} (ofSource source []) (texts.map some)).2.asked.length := by
    rw [all_ofSource, prompts, List.length_reverse]
  have hasked : (ofSource source []).asked.length = 0 := rfl
  have hnonempty : (∀ answer ∈ (texts.map some).dropLast, (answer.getD "").isEmpty = false) ↔
      ∀ text ∈ texts.dropLast, text ≠ "" := by
    rw [← List.map_dropLast, List.forall_mem_map]
    simp
  constructor
  · intro h
    refine ⟨?_, hnonempty.mpr h.nonempty⟩
    rw [hasked, Nat.zero_add, List.length_map, ← hprompts]
    exact h.requests
  · intro h
    refine ⟨?_, hnonempty.mp h.nonempty⟩
    have hcount := h.count
    rw [hasked, Nat.zero_add, List.length_map, ← hprompts] at hcount
    exact hcount

/-- Of the texts to come, a source goes on in a first part and leaves the rest. -/
theorem exists_continues (source : String) (texts : List String) :
    ∃ taken rest, texts = taken ++ rest ∧ Continues source taken (rest = []) ∧
      (ofSource source (texts.map some)).all.1 = (ofSource source (taken.map some)).all.1 ∧
      (ofSource source (texts.map some)).all.2.answers = rest.map some := by
  obtain ⟨taken, rest, x, q, happend, hrequested, hfew, hall⟩ :=
    exists_requested {} (ofSource source []) (texts.map some)
  obtain ⟨taken, rest, rfl, rfl, rfl⟩ := List.map_eq_append_iff.mp happend
  rw [List.map_eq_nil_iff] at hrequested
  refine ⟨taken, rest, rfl, continues_iff.mpr hrequested, ?_, ?_⟩
  · rw [all_ofSource, all_ofSource, hall, hfew]
  · rw [all_ofSource, hall]

/-- The rest is determined by the source and the answers to come. -/
theorem Continues.answers_append {source : String} {taken : List String}
    {rest : List (Option String)} (h : Continues source taken (rest = [])) :
    (ofSource source (taken.map some ++ rest)).all.2.answers = rest := by
  rw [all_ofSource]
  exact (continues_iff.mp h).answers_append

example : Continues "(a" ["b", "c)"] False :=
  ⟨.inl (by decide +kernel), by simp⟩

end Lisplet.Reader
