import Mathlib.Data.List.TakeWhile
import Mathlib.Data.List.Infix
import Xv6.Sh

/-!
# Xv6.Sh.Parse

The shell parser accepts its grammar.

* `Token`, `Spells` and `Derives` are the grammar: which tokens a string is
  spelled with, and which trees `line`, `pipe` and `exec` derive from tokens.
* Soundness is `Parsed`: what a function of the parser has read is spelled with
  tokens that derive the command it returns.  The same induction shows that the
  parser ends and that every stop is a panic.
* Completeness is `Accepts`: on a derivable front, followed by a token that cannot
  continue it, the function returns the derived tree.
* `parsecmd_iff` puts them together; `readback_eq` is about `nulterminate`.
-/

namespace Xv6.Sh

/-! ## the grammar -/

inductive RedirOp
  | lt
  | gt
  | gtgt
deriving DecidableEq

inductive Token
  | word (w : List UInt8)
  | redir (op : RedirOp)
  | bar
  | amp
  | semi
  | lpar
  | rpar
deriving DecidableEq

/-- The bytes of a token. -/
def Token.bytes : Token → List UInt8
  | .word w => w
  | .redir .lt => [0x3c]
  | .redir .gt => [0x3e]
  | .redir .gtgt => [0x3e, 0x3e]
  | .bar => [0x7c]
  | .amp => [0x26]
  | .semi => [0x3b]
  | .lpar => [0x28]
  | .rpar => [0x29]

/-- White space. -/
def White (ws : List UInt8) : Prop := ∀ c ∈ ws, whitespace.contains c = true

/-- No byte of a word follows. -/
def WordEnd (s : List UInt8) : Prop := ∀ c ∈ s.head?, isWord c = false

/-- The text of a word. -/
structure WordText (w : List UInt8) : Prop where
  ne_nil : w ≠ []
  isWord : ∀ c ∈ w, isWord c = true
  no_nul : 0 ∉ w

/-- A string is the bytes of the tokens with white space between them; a word is
a maximal run. -/
inductive Spells : List Token → List UInt8 → Prop
  | nil {ws : List UInt8} : White ws → Spells [] ws
  | word {ws w s : List UInt8} {ts : List Token} : White ws → WordText w → WordEnd s →
      Spells ts s → Spells (.word w :: ts) (ws ++ (w ++ s))
  | sym {ws s : List UInt8} {t : Token} {ts : List Token} : White ws → (∀ w, t ≠ .word w) →
      Spells ts s → Spells (t :: ts) (ws ++ (t.bytes ++ s))

/-- `redir ::= ('<' | '>' | '>>') word` -/
abbrev Redir : Type := RedirOp × List UInt8

def RedirOp.mode : RedirOp → UInt32
  | .lt => O_RDONLY
  | .gt => O_WRONLY ||| O_CREATE
  | .gtgt => O_WRONLY ||| O_CREATE

def RedirOp.fd : RedirOp → Nat
  | .lt => 0
  | .gt => 1
  | .gtgt => 1

def redirTokens (rs : List Redir) : List Token := rs.flatMap fun r => [.redir r.1, .word r.2]

/-- The words of a simple command, each with the redirections that follow it. -/
def argTokens (args : List (List UInt8 × List Redir)) : List Token :=
  args.flatMap fun a => .word a.1 :: redirTokens a.2

/-- Each redirection wraps what precedes it. -/
def wrap {α : Type} (rs : List (RedirOp × α)) (c : Cmd α) : Cmd α :=
  rs.foldl (fun c r => .redir c r.2 r.1.mode r.1.fd) c

/-- `BACK` per `&`. -/
def backs {α : Type} : Nat → Cmd α → Cmd α
  | 0, c => c
  | k + 1, c => backs k (.back c)

inductive Nonterminal
  | line
  | pipe
  | exec

/-- The tokens that a nonterminal derives, with the tree of the derivation. -/
inductive Derives : Nonterminal → List Token → Cmd (List UInt8) → Prop
  /-- `line ::= pipe '&'*` -/
  | line {p : List Token} {c : Cmd (List UInt8)} (k : Nat) : Derives .pipe p c →
      Derives .line (p ++ List.replicate k .amp) (backs k c)
  /-- `line ::= pipe '&'* ';' line` -/
  | seq {p l : List Token} {c r : Cmd (List UInt8)} (k : Nat) : Derives .pipe p c →
      Derives .line l r →
      Derives .line (p ++ (List.replicate k .amp ++ .semi :: l)) (.list (backs k c) r)
  /-- `pipe ::= exec` -/
  | pipe {e : List Token} {c : Cmd (List UInt8)} : Derives .exec e c → Derives .pipe e c
  /-- `pipe ::= exec '|' pipe` -/
  | bar {e p : List Token} {c r : Cmd (List UInt8)} : Derives .exec e c → Derives .pipe p r →
      Derives .pipe (e ++ .bar :: p) (.pipe c r)
  /-- `exec ::= '(' line ')' redir*` -/
  | block {l : List Token} {c : Cmd (List UInt8)} (rs : List Redir) : Derives .line l c →
      Derives .exec (.lpar :: (l ++ .rpar :: redirTokens rs)) (wrap rs c)
  /-- `exec ::= redir* (word redir*)*` with at most `MAXARGS - 1` words -/
  | simple (rs : List Redir) (args : List (List UInt8 × List Redir)) :
      args.length ≤ MAXARGS - 1 →
      Derives .exec (redirTokens rs ++ argTokens args)
        (wrap (rs ++ args.flatMap (·.2)) (.exec (args.map (·.1))))

/-- A string that the grammar derives, with its tree. -/
def Sentence (s : List UInt8) (c : Cmd (List UInt8)) : Prop :=
  ∃ ts, Spells ts s ∧ Derives .line ts c

/-! ## white space and bytes -/

theorem skip_append {ws : List UInt8} (h : White ws) (s : List UInt8) :
    skip (ws ++ s) = skip s := by
  unfold skip
  rw [List.dropWhile_append_of_pos h]

theorem skip_cons {c : UInt8} (h : whitespace.contains c = false) (s : List UInt8) :
    skip (c :: s) = c :: s := by
  unfold skip
  rw [List.dropWhile_cons_of_neg (by simpa using h)]

/-- What `skip` leaves does not begin with white space. -/
theorem head_skip {s t : List UInt8} {c : UInt8} (h : skip s = c :: t) :
    whitespace.contains c = false := by
  have hhead := List.head?_dropWhile_not (fun c => whitespace.contains c) s
  rw [show s.dropWhile (fun c => whitespace.contains c) = c :: t from h] at hhead
  exact hhead

theorem exists_white (s : List UInt8) : ∃ ws, White ws ∧ s = ws ++ skip s :=
  ⟨s.takeWhile (whitespace.contains ·), fun _ hc => List.mem_takeWhile_imp hc,
    (List.takeWhile_append_dropWhile ..).symm⟩

theorem skip_suffix (s : List UInt8) : skip s <:+ s := List.dropWhile_suffix _

@[simp] theorem skip_skip (s : List UInt8) : skip (skip s) = skip s := by
  cases h : skip s with
  | nil => rfl
  | cons c t => exact skip_cons (head_skip h) t

/-- White space in front does not matter. -/
theorem Spells.white {ts : List Token} {s ws : List UInt8} (hws : White ws) (h : Spells ts s) :
    Spells ts (ws ++ s) := by
  have happ {ws' : List UInt8} (h' : White ws') : White (ws ++ ws') := by
    intro c hc
    rcases List.mem_append.mp hc with hc | hc
    · exact hws c hc
    · exact h' c hc
  cases h with
  | nil h' => exact .nil (happ h')
  | word h' hw he hs =>
      rw [← List.append_assoc]
      exact .word (happ h') hw he hs
  | sym h' ht hs =>
      rw [← List.append_assoc]
      exact .sym (happ h') ht hs

theorem Spells.of_skip {ts : List Token} {s : List UInt8} (h : Spells ts (skip s)) :
    Spells ts s := by
  obtain ⟨ws, hws, he⟩ := exists_white s
  rw [he]
  exact h.white hws

theorem contains_symbols_of_isWord {c : UInt8} (h : isWord c = true) :
    whitespace.contains c = false ∧ symbols.contains c = false := by
  simpa [isWord] using h

/-- The first byte of a word. -/
theorem WordText.cons {w : List UInt8} (h : WordText w) :
    ∃ c t, w = c :: t ∧ Sh.isWord c = true ∧ c ≠ 0 := by
  cases w with
  | nil => exact absurd rfl h.ne_nil
  | cons c t =>
      exact ⟨c, t, rfl, h.isWord c List.mem_cons_self, fun h0 => h.no_nul (h0 ▸ List.mem_cons_self)⟩

/-- The first byte of a token that is not a word is a symbol. -/
theorem Token.bytes_cons {t : Token} (h : ∀ w, t ≠ .word w) :
    ∃ c u, t.bytes = c :: u ∧ symbols.contains c = true ∧ whitespace.contains c = false ∧
      c ≠ 0 := by
  cases t with
  | word w => exact absurd rfl (h w)
  | redir op => cases op <;> exact ⟨_, _, rfl, by decide, by decide, by decide⟩
  | bar => exact ⟨_, _, rfl, by decide, by decide, by decide⟩
  | amp => exact ⟨_, _, rfl, by decide, by decide, by decide⟩
  | semi => exact ⟨_, _, rfl, by decide, by decide, by decide⟩
  | lpar => exact ⟨_, _, rfl, by decide, by decide, by decide⟩
  | rpar => exact ⟨_, _, rfl, by decide, by decide, by decide⟩

/-! ## what the token functions do on a spelled string -/

section Complete

variable {ts : List Token} {s : List UInt8}

/-- Past the white space, the string begins with the first token. -/
theorem Spells.skip_nil (h : Spells [] s) : skip s = [] := by
  cases h with
  | nil hws =>
      rw [← List.append_nil s, skip_append hws]
      rfl

theorem Spells.skip_word {w : List UInt8} (h : Spells (.word w :: ts) s) :
    ∃ u, skip s = w ++ u ∧ WordText w ∧ WordEnd u ∧ Spells ts u := by
  cases h with
  | word hws hw he hs =>
      obtain ⟨c, t, rfl, hc, -⟩ := hw.cons
      refine ⟨_, ?_, hw, he, hs⟩
      rw [skip_append hws, List.cons_append, skip_cons (contains_symbols_of_isWord hc).1]
  | sym _ ht _ => exact absurd rfl (ht w)

theorem Spells.skip_sym {t : Token} (ht : ∀ w, t ≠ .word w) (h : Spells (t :: ts) s) :
    ∃ u, skip s = t.bytes ++ u ∧ Spells ts u := by
  cases h with
  | word => exact absurd rfl (ht _)
  | sym hws _ hs =>
      obtain ⟨c, t', hb, -, hc, -⟩ := Token.bytes_cons ht
      refine ⟨_, ?_, hs⟩
      rw [skip_append hws, hb, List.cons_append, skip_cons hc]

theorem Spells.skip (h : Spells ts s) : Spells ts (skip s) := by
  have hnil : White [] := fun _ hc => absurd hc List.not_mem_nil
  cases h with
  | nil hws =>
      rw [(Spells.nil hws).skip_nil]
      exact .nil hnil
  | word hws hw he hs =>
      obtain ⟨u, hu, -, hend, hs'⟩ := (Spells.word hws hw he hs).skip_word
      rw [hu]
      exact Spells.word hnil hw hend hs'
  | sym hws ht hs =>
      obtain ⟨u, hu, hs'⟩ := (Spells.sym hws ht hs).skip_sym ht
      rw [hu]
      exact Spells.sym hnil ht hs'

/-- The byte of a token that is not a word. -/
def Token.isOneOf (toks : List UInt8) : Token → Bool
  | .word _ => false
  | t => t.bytes.head?.any (toks.contains ·)

/-- **`peek`** looks at the first token. -/
theorem peek_eq (h : Spells ts s) (toks : List UInt8)
    (htoks : toks.all symbols.contains = true) :
    peek s toks = (ts.head?.any (Token.isOneOf toks), Sh.skip s) := by
  unfold peek
  cases h with
  | nil hws => rw [(Spells.nil hws).skip_nil]; rfl
  | word hws hw he hs =>
      obtain ⟨u, hu, -, -, -⟩ := (Spells.word hws hw he hs).skip_word
      obtain ⟨c, t, rfl, hc, -⟩ := hw.cons
      rw [hu]
      have hnot : c ∉ toks := by
        intro hin
        have := List.all_eq_true.mp htoks c hin
        rw [(contains_symbols_of_isWord hc).2] at this
        exact absurd this (by decide)
      simp [hnot, Token.isOneOf]
  | @sym ws s t ts hws ht hs =>
      obtain ⟨u, hu, -⟩ := (Spells.sym hws ht hs).skip_sym ht
      obtain ⟨c, v, hb, -, -, hc⟩ := Token.bytes_cons ht
      have hone : t.isOneOf toks = toks.contains c := by
        cases t with
        | word w => exact absurd rfl (ht w)
        | _ => simp only [Token.isOneOf, hb, List.head?_cons, Option.any_some]
      rw [hu, hb]
      simp [hone, hc]

/-- **`gettoken`** on a word. -/
theorem gettoken_word {w : List UInt8} (h : Spells (.word w :: ts) s) :
    ∃ u, gettoken s = (0x61, (w ++ u, u), Sh.skip u) ∧ Spells ts (Sh.skip u) := by
  obtain ⟨u, hu, hw, hend, hs⟩ := h.skip_word
  refine ⟨u, ?_, hs.skip⟩
  have hdrop : (w ++ u).dropWhile isWord = u := by
    rw [List.dropWhile_append_of_pos hw.isWord]
    cases u with
    | nil => rfl
    | cons d v => exact List.dropWhile_cons_of_neg (by rw [hend d rfl]; decide)
  obtain ⟨c, t, rfl, hc, h0⟩ := hw.cons
  have hsym := (contains_symbols_of_isWord hc).2
  have hgt : c ≠ 0x3e := by
    rintro rfl
    exact absurd hsym (by decide)
  unfold gettoken
  rw [hu]
  simp only [List.cons_append] at hdrop ⊢
  rw [if_neg h0, if_neg hgt, if_neg (by rw [hsym]; decide), hdrop]

/-- **`gettoken`** on a symbol of one byte. -/
theorem gettoken_sym {t : Token} {c : UInt8} (h : Spells (t :: ts) s) (hb : t.bytes = [c])
    (ht : ∀ w, t ≠ .word w) (hgt : c ≠ 0x3e) :
    ∃ u, gettoken s = (c, (c :: u, u), Sh.skip u) ∧ Spells ts (Sh.skip u) := by
  obtain ⟨u, hu, hs⟩ := h.skip_sym ht
  obtain ⟨c', v, hb', hsym, -, h0⟩ := Token.bytes_cons ht
  obtain ⟨rfl, rfl⟩ : c = c' ∧ v = [] := by
    rw [hb] at hb'
    exact ⟨(List.cons.inj hb').1, (List.cons.inj hb').2.symm⟩
  refine ⟨u, ?_, hs.skip⟩
  unfold gettoken
  rw [hu, hb]
  simp only [List.cons_append, List.nil_append]
  rw [if_neg h0, if_neg hgt, if_pos hsym]

/-- **`gettoken`** on a redirection; a word follows, so that `>` is not the first
byte of `>>`. -/
theorem gettoken_redir {op : RedirOp} {w : List UInt8} (h : Spells (.redir op :: .word w :: ts) s) :
    ∃ c q s', gettoken s = (c, q, s') ∧ Spells (.word w :: ts) s' ∧
      ((op = .lt ∧ c = 0x3c) ∨ (op = .gt ∧ c = 0x3e) ∨ (op = .gtgt ∧ c = 0x2b)) := by
  obtain ⟨u, hu, hs⟩ := h.skip_sym (by simp)
  cases op with
  | lt =>
      obtain ⟨u, he, hs'⟩ := gettoken_sym h rfl (by simp) (by decide)
      exact ⟨_, _, _, he, hs', .inl ⟨rfl, rfl⟩⟩
  | gt =>
      refine ⟨0x3e, (0x3e :: u, u), Sh.skip u, ?_, hs.skip, .inr (.inl ⟨rfl, rfl⟩)⟩
      unfold gettoken
      rw [hu]
      simp only [Token.bytes, List.cons_append, List.nil_append]
      rw [if_neg (by decide), if_pos trivial]
      cases u with
      | nil => rfl
      | cons d v =>
          have hd : d ≠ 0x3e := by
            rintro rfl
            obtain ⟨v', hv, hw, -, -⟩ := hs.skip_word
            obtain ⟨c, t, rfl, hc, -⟩ := hw.cons
            rw [skip_cons (by decide)] at hv
            obtain rfl := (List.cons.inj hv).1
            exact absurd hc (by decide)
          exact if_neg hd
  | gtgt =>
      refine ⟨0x2b, (0x3e :: 0x3e :: u, u), Sh.skip u, ?_, hs.skip, .inr (.inr ⟨rfl, rfl⟩)⟩
      unfold gettoken
      rw [hu]
      simp only [Token.bytes, List.cons_append, List.nil_append]
      rw [if_neg (by decide), if_pos trivial, if_pos trivial]

theorem gettoken_nil (h : Spells [] s) : gettoken s = (0, ([], []), []) := by
  unfold gettoken
  rw [h.skip_nil]

/-! ## completeness -/

/-- The text of a span. -/
def Span.text (w : Span) : List UInt8 := w.1.take (w.1.length - w.2.length)

theorem Span.text_append (w u : List UInt8) : Span.text (w ++ u, u) = w := by
  simp [Span.text]

/-- A command with the texts of its spans. -/
def Cmd.text (c : Cmd Span) : Cmd (List UInt8) := c.map Span.text

theorem Cmd.text_addArg (w : Span) (c : Cmd Span) : (addArg w c).text = addArg w.text c.text := by
  induction c with
  | exec argv => simp [addArg, Cmd.text, Cmd.map]
  | redir c file mode fd ih =>
      simp only [addArg, Cmd.text, Cmd.map] at ih ⊢
      rw [ih]
  | _ => rfl

theorem wrap_cons {α : Type} (r : RedirOp × α) (rs : List (RedirOp × α)) (c : Cmd α) :
    wrap (r :: rs) c = wrap rs (.redir c r.2 r.1.mode r.1.fd) := rfl

theorem wrap_append {α : Type} (rs rs' : List (RedirOp × α)) (c : Cmd α) :
    wrap (rs ++ rs') c = wrap rs' (wrap rs c) := List.foldl_append

theorem addArg_wrap {α : Type} (w : α) (rs : List (RedirOp × α)) (c : Cmd α) :
    addArg w (wrap rs c) = wrap rs (addArg w c) := by
  induction rs generalizing c with
  | nil => rfl
  | cons r rs ih =>
      rw [wrap_cons, wrap_cons, ih]
      rfl

/-- What follows is one of the given tokens, or nothing. -/
def Follows (ok : Token → Bool) (ts : List Token) : Prop := ∀ t ∈ ts.head?, ok t = true

/-- The function returns the tree `T` and leaves the tokens `ts`, or it does not
end. -/
def Accepts (r : R (Cmd Span × List UInt8)) (T : Cmd (List UInt8)) (ts : List Token) : Prop :=
  (∃ cmd s, r = .ok (cmd, s) ∧ cmd.text = T ∧ Spells ts s) ∨ r = .error .endless

theorem Accepts.bind {r : R (Cmd Span × List UInt8)} {T T' : Cmd (List UInt8)} {ts' : List Token}
    (h : Accepts r T ts) {f : Cmd Span × List UInt8 → R (Cmd Span × List UInt8)}
    (hf : ∀ cmd s, cmd.text = T → Spells ts s → Accepts (f (cmd, s)) T' ts') :
    Accepts (r >>= f) T' ts' := by
  rcases h with ⟨cmd, s, rfl, hT, hs⟩ | rfl
  · exact hf cmd s hT hs
  · exact .inr rfl

theorem Accepts.ok {cmd : Cmd Span} (hs : Spells ts s) : Accepts (.ok (cmd, s)) cmd.text ts :=
  .inl ⟨cmd, s, rfl, rfl, hs⟩

theorem Token.isOneOf_iff {toks : List UInt8} {t : Token} :
    t.isOneOf toks = true ↔ (∀ w, t ≠ .word w) ∧ ∃ c ∈ t.bytes.head?, c ∈ toks := by
  cases t with
  | word w => simp [Token.isOneOf]
  | _ => simp [Token.isOneOf, Option.any_eq_true]

theorem Follows.mono {toks toks' : List UInt8} (h : Follows (Token.isOneOf toks) ts)
    (hsub : toks.all (toks'.contains ·) = true) : Follows (Token.isOneOf toks') ts := by
  intro t ht
  obtain ⟨hword, c, hc, hin⟩ := Token.isOneOf_iff.mp (h t ht)
  exact Token.isOneOf_iff.mpr ⟨hword, c, hc, by simpa using List.all_eq_true.mp hsub c hin⟩

theorem Follows.not {toks toks' : List UInt8} (h : Follows (Token.isOneOf toks) ts)
    (hdisj : toks.all (!toks'.contains ·) = true) : Follows (fun t => !t.isOneOf toks') ts := by
  intro t ht
  obtain ⟨-, c, hc, hin⟩ := Token.isOneOf_iff.mp (h t ht)
  simp only [Bool.not_eq_true', Bool.eq_false_iff]
  intro hone
  obtain ⟨-, c', hc', hin'⟩ := Token.isOneOf_iff.mp hone
  obtain rfl := Option.mem_unique hc hc'
  have hout := List.all_eq_true.mp hdisj c hin
  simp [hin'] at hout

theorem Follows.replicate {ok : Token → Bool} (h : Follows ok ts) {t : Token} (ht : ok t = true)
    (k : Nat) : Follows ok (List.replicate k t ++ ts) := by
  cases k with
  | zero => exact h
  | succ k => simpa [Follows, List.replicate_succ] using ht

theorem peek_other (h : Spells ts s) {toks : List UInt8}
    (htoks : toks.all symbols.contains = true)
    (hf : Follows (fun t => !t.isOneOf toks) ts) : peek s toks = (false, Sh.skip s) := by
  rw [peek_eq h toks htoks]
  cases ts with
  | nil => rfl
  | cons t ts => simpa [Follows] using hf

theorem parseredirsLoop_complete (n : Nat) (cmd : Cmd Span) (rs : List Redir)
    (h : Spells (redirTokens rs ++ ts) s) (hf : Follows (fun t => !t.isOneOf [0x3c, 0x3e]) ts) :
    Accepts (parseredirsLoop n cmd s) (wrap rs cmd.text) ts := by
  induction rs generalizing n cmd s with
  | nil =>
      cases n with
      | zero => exact .inr rfl
      | succ n =>
          unfold parseredirsLoop
          rw [peek_other h (by decide) hf]
          exact .ok h.skip
  | cons r rs ih =>
      cases n with
      | zero => exact .inr rfl
      | succ n =>
          have htoks : redirTokens (r :: rs) ++ ts =
              .redir r.1 :: .word r.2 :: (redirTokens rs ++ ts) := rfl
          rw [htoks] at h
          have hpeek := peek_eq h [0x3c, 0x3e] (by decide)
          have hone : (Token.redir r.1).isOneOf [0x3c, 0x3e] = true := by
            cases r.1 <;> rfl
          rw [List.head?_cons, Option.any_some, hone] at hpeek
          obtain ⟨c, q, s₁, hg, hs₁, hop⟩ := gettoken_redir h.skip
          obtain ⟨u, hg', hs₂⟩ := gettoken_word hs₁
          unfold parseredirsLoop
          simp only [hpeek, hg, hg', if_true, ne_eq, not_true_eq_false, if_false]
          obtain ⟨op, w⟩ := r
          have hnext (mode : UInt32) (fd : Nat) (hmode : op.mode = mode) (hfd : op.fd = fd) :
              Accepts (parseredirsLoop n (.redir cmd (w ++ u, u) mode fd) (Sh.skip u))
                (wrap ((op, w) :: rs) cmd.text) ts := by
            rw [wrap_cons, ← hmode, ← hfd]
            have := ih n (.redir cmd (w ++ u, u) op.mode op.fd) hs₂
            rwa [Cmd.text, Cmd.map, Span.text_append] at this
          rcases hop with ⟨rfl, rfl⟩ | ⟨rfl, rfl⟩ | ⟨rfl, rfl⟩
          · exact hnext _ _ rfl rfl
          · exact hnext _ _ rfl rfl
          · exact hnext _ _ rfl rfl

theorem parseredirs_complete (cmd : Cmd Span) {rs : List Redir}
    (h : Spells (redirTokens rs ++ ts) s) (hf : Follows (fun t => !t.isOneOf [0x3c, 0x3e]) ts) :
    Accepts (parseredirs cmd s) (wrap rs cmd.text) ts :=
  parseredirsLoop_complete _ _ _ h hf

/-- A symbol that is looked for, and read. -/
theorem peek_sym {t : Token} {c : UInt8} (h : Spells (t :: ts) s) (hb : t.bytes = [c])
    (ht : ∀ w, t ≠ .word w) (hgt : c ≠ 0x3e) (hsym : symbols.contains c = true) :
    peek s [c] = (true, Sh.skip s) ∧ Spells ts (gettoken (Sh.skip s)).2.2 := by
  obtain ⟨u, hg, hs⟩ := gettoken_sym h.skip hb ht hgt
  have hone : t.isOneOf [c] = true := by
    cases t with
    | word w => exact absurd rfl (ht w)
    | _ => simp [Token.isOneOf, hb]
  rw [peek_eq h [c] (by simpa using hsym), hg, List.head?_cons, Option.any_some, hone]
  exact ⟨rfl, hs⟩

theorem parseargs_complete (n : Nat) (ret : Cmd Span) (argc : Nat) (rs : List Redir)
    (ws : List (List UInt8)) (hret : ret.text = wrap rs (.exec ws))
    (args : List (List UInt8 × List Redir)) (h : Spells (argTokens args ++ ts) s)
    (hargc : argc + args.length < MAXARGS)
    (hf : Follows (Token.isOneOf [0x7c, 0x29, 0x26, 0x3b]) ts) :
    Accepts (parseargs n ret argc s)
      (wrap (rs ++ args.flatMap (·.2)) (.exec (ws ++ args.map (·.1)))) ts := by
  induction args generalizing n ret argc rs ws s with
  | nil =>
      rw [show argTokens [] ++ ts = ts from rfl] at h
      have hend (s : List UInt8) (hs : Spells ts s) :
          Accepts (parseargs.parseargsEnd ret argc s) (wrap (rs ++ []) (.exec (ws ++ []))) ts := by
        unfold parseargs.parseargsEnd
        rw [if_neg (by simpa using hargc), List.append_nil, List.append_nil, ← hret]
        exact .ok hs
      cases n with
      | zero => exact .inr rfl
      | succ n =>
          unfold parseargs
          simp only [peek_eq h [0x7c, 0x29, 0x26, 0x3b] (by decide)]
          cases ts with
          | nil =>
              rw [gettoken_nil h.skip]
              exact hend [] (h.skip_nil ▸ h.skip)
          | cons t ts =>
              have hstop : t.isOneOf [0x7c, 0x29, 0x26, 0x3b] = true := hf t rfl
              rw [List.head?_cons, Option.any_some, if_pos hstop]
              exact hend _ h.skip
  | cons a args ih =>
      obtain ⟨w, rs'⟩ := a
      have htoks : argTokens ((w, rs') :: args) ++ ts =
          .word w :: (redirTokens rs' ++ (argTokens args ++ ts)) := by
        simp [argTokens]
      rw [htoks] at h
      rw [List.length_cons] at hargc
      obtain ⟨u, hg, hs⟩ := gettoken_word h.skip
      have hfollow : Follows (fun t => !t.isOneOf [0x3c, 0x3e]) (argTokens args ++ ts) := by
        cases args with
        | nil => exact hf.not (by decide)
        | cons a args => simp [Follows, argTokens, Token.isOneOf]
      cases n with
      | zero => exact .inr rfl
      | succ n =>
          unfold parseargs
          simp only [peek_eq h [0x7c, 0x29, 0x26, 0x3b] (by decide), hg,
            List.head?_cons, Option.any_some, Token.isOneOf]
          rw [if_neg (by decide), if_neg (by decide), if_neg (by simp), if_neg (by omega),
            if_neg (by omega)]
          refine Accepts.bind (parseredirs_complete _ hs hfollow) fun ret' s' hret' hs' => ?_
          rw [Cmd.text_addArg, Span.text_append, hret, addArg_wrap, ← wrap_append] at hret'
          have := ih n ret' (argc + 1) (rs ++ rs') (ws ++ [w]) hret' hs' (by omega)
          simpa using this

theorem backLoop_complete (n k : Nat) (cmd : Cmd Span)
    (h : Spells (List.replicate k .amp ++ ts) s)
    (hf : Follows (fun t => !t.isOneOf [0x26]) ts) :
    Accepts (backLoop n cmd s) (backs k cmd.text) ts := by
  induction k generalizing n cmd s with
  | zero =>
      rw [show List.replicate 0 Token.amp ++ ts = ts from rfl] at h
      cases n with
      | zero => exact .inr rfl
      | succ n =>
          unfold backLoop
          rw [peek_other h (by decide) hf]
          exact .ok h.skip
  | succ k ih =>
      rw [List.replicate_succ, List.cons_append] at h
      obtain ⟨u, hg, hs⟩ := gettoken_sym h.skip rfl (by simp) (by decide)
      cases n with
      | zero => exact .inr rfl
      | succ n =>
          unfold backLoop
          simp only [peek_eq h [0x26] (by decide), hg, List.head?_cons]
          exact ih n (.back cmd) hs

/-- The function of the parser for a nonterminal. -/
def Nonterminal.parse : Nonterminal → Nat → List UInt8 → R (Cmd Span × List UInt8)
  | .line => parseline
  | .pipe => parsepipe
  | .exec => parseexec

/-- The bytes that may follow. -/
def Nonterminal.follow : Nonterminal → List UInt8
  | .line => [0x29]
  | .pipe => [0x26, 0x3b, 0x29]
  | .exec => [0x7c, 0x29, 0x26, 0x3b]

theorem Derives.complete {nt : Nonterminal} {ts : List Token} {T : Cmd (List UInt8)}
    (h : Derives nt ts T) (n : Nat) (s : List UInt8) (ts' : List Token)
    (hs : Spells (ts ++ ts') s) (hf : Follows (Token.isOneOf nt.follow) ts') :
    Accepts (nt.parse n s) T ts' := by
  induction h generalizing n s ts' with
  | @line p c k hp ihp =>
      rw [List.append_assoc] at hs
      have hpf : Follows (Token.isOneOf Nonterminal.pipe.follow)
          (List.replicate k .amp ++ ts') :=
        (hf.mono (by decide)).replicate rfl k
      cases n with
      | zero => exact .inr rfl
      | succ n =>
          simp only [Nonterminal.parse]
          unfold parseline
          refine Accepts.bind (ihp n s _ hs hpf) fun cmd s hcmd hs => ?_
          refine Accepts.bind (backLoop_complete _ k cmd hs (hf.not (by decide)))
            fun cmd' s hcmd' hs => ?_
          dsimp only
          rw [peek_other hs (by decide) (hf.not (by decide))]
          exact .inl ⟨_, _, rfl, hcmd ▸ hcmd', hs.skip⟩
  | @seq p l c r k hp hl ihp ihl =>
      rw [List.append_assoc, List.append_assoc, List.cons_append] at hs
      have hsemi {ok : Token → Bool} (h : ok .semi = true) : Follows ok (.semi :: (l ++ ts')) := by
        simpa [Follows] using h
      cases n with
      | zero => exact .inr rfl
      | succ n =>
          simp only [Nonterminal.parse]
          unfold parseline
          refine Accepts.bind (ihp n s _ hs ((hsemi rfl).replicate rfl k)) fun cmd s hcmd hs => ?_
          refine Accepts.bind (backLoop_complete _ k cmd hs (hsemi rfl)) fun cmd' s hcmd' hs => ?_
          obtain ⟨hpeek, hs'⟩ := peek_sym hs rfl (by simp) (by decide) (by decide)
          dsimp only
          rw [hpeek]
          refine Accepts.bind (ihl n _ _ hs' hf) fun right s hright hs => ?_
          exact .inl ⟨_, _, rfl, by rw [← hright, ← hcmd, ← hcmd']; rfl, hs⟩
  | pipe he ihe =>
      cases n with
      | zero => exact .inr rfl
      | succ n =>
          simp only [Nonterminal.parse]
          unfold parsepipe
          refine Accepts.bind (ihe n s _ hs (hf.mono (by decide))) fun cmd s hcmd hs => ?_
          dsimp only
          rw [peek_other hs (by decide) (hf.not (by decide))]
          exact .inl ⟨_, _, rfl, hcmd, hs.skip⟩
  | @bar e p c r he hp ihe ihp =>
      rw [List.append_assoc, List.cons_append] at hs
      have hbar : Follows (Token.isOneOf Nonterminal.exec.follow) (.bar :: (p ++ ts')) := by
        simp [Follows, Token.isOneOf, Token.bytes, Nonterminal.follow]
      cases n with
      | zero => exact .inr rfl
      | succ n =>
          simp only [Nonterminal.parse]
          unfold parsepipe
          refine Accepts.bind (ihe n s _ hs hbar) fun cmd s hcmd hs => ?_
          obtain ⟨hpeek, hs'⟩ := peek_sym hs rfl (by simp) (by decide) (by decide)
          dsimp only
          rw [hpeek]
          refine Accepts.bind (ihp n _ _ hs' hf) fun right s hright hs => ?_
          exact .inl ⟨_, _, rfl, by rw [← hright, ← hcmd]; rfl, hs⟩
  | @block l c rs hl ihl =>
      rw [List.cons_append, List.append_assoc, List.cons_append] at hs
      have hrpar : Follows (Token.isOneOf Nonterminal.line.follow)
          (.rpar :: (redirTokens rs ++ ts')) := by
        simp [Follows, Token.isOneOf, Token.bytes, Nonterminal.follow]
      cases n with
      | zero => exact .inr rfl
      | succ n =>
          simp only [Nonterminal.parse]
          unfold parseexec
          dsimp only
          rw [(peek_sym hs rfl (by simp) (by decide) (by decide)).1]
          cases n with
          | zero => exact .inr rfl
          | succ n =>
              obtain ⟨hopen, hs'⟩ := peek_sym hs.skip rfl (by simp) (by decide) (by decide)
              rw [if_pos rfl]
              unfold parseblock
              dsimp only
              rw [hopen]
              refine Accepts.bind (ihl n _ _ hs' hrpar) fun cmd s hcmd hs => ?_
              obtain ⟨hclose, hs'⟩ := peek_sym hs rfl (by simp) (by decide) (by decide)
              dsimp only
              rw [hclose]
              have := parseredirs_complete cmd hs' (hf.not (by decide))
              rwa [hcmd] at this
  | simple rs args hlen =>
      rw [List.append_assoc] at hs
      have hargs {ok : Token → Bool} (hw : ∀ w, ok (.word w) = true) (h : Follows ok ts') :
          Follows ok (argTokens args ++ ts') := by
        cases args with
        | nil => exact h
        | cons a args => simpa [Follows, argTokens] using hw a.1
      have hlpar : Follows (fun t => !t.isOneOf [0x28])
          (redirTokens rs ++ (argTokens args ++ ts')) := by
        cases rs with
        | nil => exact hargs (fun _ => rfl) (hf.not (by decide))
        | cons r rs =>
            obtain ⟨op, w⟩ := r
            cases op <;> simp [Follows, redirTokens, Token.isOneOf, Token.bytes]
      cases n with
      | zero => exact .inr rfl
      | succ n =>
          simp only [Nonterminal.parse]
          unfold parseexec
          dsimp only
          rw [peek_other hs (by decide) hlpar]
          refine Accepts.bind (parseredirs_complete _ hs.skip
            (hargs (fun _ => rfl) (hf.not (by decide)))) fun ret s hret hs => ?_
          have hbound : 0 + args.length < MAXARGS := by
            unfold MAXARGS at *
            omega
          exact parseargs_complete _ ret 0 rs [] hret args hs hbound hf

end Complete

/-! ## soundness -/

/-- The words of a command. -/
def Cmd.words {α : Type} : Cmd α → List α
  | .exec argv => argv
  | .redir cmd file _ _ => cmd.words ++ [file]
  | .pipe left right => left.words ++ right.words
  | .list left right => left.words ++ right.words
  | .back cmd => cmd.words

/-- What is read from `s` up to `s'` is spelled with the tokens `ts`. -/
structure Reads (ts : List Token) (s s' : List UInt8) : Prop where
  suffix : s' <:+ s
  spells : ∀ ts', Spells ts' s' → Spells (ts ++ ts') s

theorem Reads.trans {ts ts' : List Token} {s s' s'' : List UInt8} (h : Reads ts s s')
    (h' : Reads ts' s' s'') : Reads (ts ++ ts') s s'' where
  suffix := h'.suffix.trans h.suffix
  spells us hus := by
    rw [List.append_assoc]
    exact h.spells _ (h'.spells us hus)

theorem Reads.skip (s : List UInt8) : Reads [] s (skip s) :=
  ⟨skip_suffix s, fun _ h => h.of_skip⟩

/-- The value that `gettoken` returns. -/
def Token.code : Token → UInt8
  | .word _ => 0x61
  | .redir .gtgt => 0x2b
  | t => t.bytes.headD 0

/-- A word of the string `s₀`. -/
structure WordAt (s₀ : List UInt8) (w : Span) : Prop where
  suffix : w.1 <:+ s₀
  split : w.1 = w.text ++ w.2
  word : WordText w.text
  ends : WordEnd w.2

/-- The string `s` begins with the token `t`. -/
structure Next (s : List UInt8) (t : Token) (u : List UInt8) : Prop where
  split : skip s = t.bytes ++ u
  word : ∀ w, t = .word w → WordText w ∧ WordEnd u

theorem Next.bytes_ne_nil {s u : List UInt8} {t : Token} (h : Next s t u) : t.bytes ≠ [] := by
  cases t with
  | word w => exact (h.word w rfl).1.ne_nil
  | redir op => cases op <;> exact List.cons_ne_nil _ _
  | _ => exact List.cons_ne_nil _ _

theorem Next.length_lt {s u : List UInt8} {t : Token} (h : Next s t u) :
    (skip u).length < s.length := by
  have hb := List.length_pos_of_ne_nil h.bytes_ne_nil
  have hle := (skip_suffix s).length_le
  have hle' := (skip_suffix u).length_le
  have hlen := congrArg List.length h.split
  rw [List.length_append] at hlen
  omega

theorem Next.reads {s u : List UInt8} {t : Token} (h : Next s t u) : Reads [t] s (skip u) where
  suffix := by
    have hu : u <:+ skip s := h.split ▸ List.suffix_append _ _
    exact (skip_suffix u).trans (hu.trans (skip_suffix s))
  spells ts' hts' := by
    apply Spells.of_skip
    rw [h.split]
    have hnil : White [] := fun _ hc => absurd hc List.not_mem_nil
    by_cases hw : ∃ w, t = .word w
    · obtain ⟨w, rfl⟩ := hw
      obtain ⟨hw, hu⟩ := h.word w rfl
      exact Spells.word hnil hw hu hts'.of_skip
    · exact Spells.sym hnil (fun w hw' => hw ⟨w, hw'⟩) hts'.of_skip

theorem Next.wordAt {s₀ s u w : List UInt8} (h : Next s (.word w) u) (hs : s <:+ s₀) :
    WordAt s₀ (w ++ u, u) where
  suffix := by
    have : w ++ u = skip s := h.split.symm
    rw [this]
    exact (skip_suffix s).trans hs
  split := by rw [Span.text_append]
  word := by
    rw [Span.text_append]
    exact (h.word w rfl).1
  ends := (h.word w rfl).2

/-- A symbol of one byte that is the next one. -/
theorem Next.sym {s u : List UInt8} {t : Token} (hu : skip s = t.bytes ++ u)
    (ht : ∀ w, t ≠ .word w) : Next s t u := ⟨hu, fun w hw => absurd hw (ht w)⟩

theorem peek_snd (s : List UInt8) (toks : List UInt8) : (peek s toks).2 = skip s := by
  unfold peek
  split
  next h => rw [h]
  next h => rw [h]

theorem symbols_cases {c : UInt8} (h : symbols.contains c = true) :
    c = 0x3e ∨ ∃ t : Token, t.bytes = [c] ∧ t.code = c ∧ ∀ w, t ≠ .word w := by
  simp only [symbols, List.contains_iff_mem, List.mem_cons, List.not_mem_nil, or_false] at h
  rcases h with rfl | rfl | rfl | rfl | rfl | rfl | rfl
  · exact .inr ⟨.redir .lt, rfl, rfl, by simp⟩
  · exact .inr ⟨.bar, rfl, rfl, by simp⟩
  · exact .inl rfl
  · exact .inr ⟨.amp, rfl, rfl, by simp⟩
  · exact .inr ⟨.semi, rfl, rfl, by simp⟩
  · exact .inr ⟨.lpar, rfl, rfl, by simp⟩
  · exact .inr ⟨.rpar, rfl, rfl, by simp⟩

theorem wordText_takeWhile {c : UInt8} {t : List UInt8} (hc : isWord c = true) (h₀ : 0 ∉ c :: t) :
    WordText ((c :: t).takeWhile isWord) ∧ WordEnd ((c :: t).dropWhile isWord) := by
  refine ⟨⟨?_, fun _ h => List.mem_takeWhile_imp h, fun h => h₀ (List.takeWhile_subset _ h)⟩, ?_⟩
  · rw [List.takeWhile_cons_of_pos hc]
    exact List.cons_ne_nil _ _
  · intro d hd
    have := List.head?_dropWhile_not isWord (c :: t)
    rwa [Option.mem_def.mp hd] at this

/-- **`gettoken`** reads a token, unless nothing but white space is left. -/
theorem gettoken_cases {s : List UInt8} (h₀ : 0 ∉ s) :
    (skip s = [] ∧ gettoken s = (0, ([], []), [])) ∨
    ∃ t u, Next s t u ∧ gettoken s = (t.code, (t.bytes ++ u, u), skip u) := by
  unfold gettoken
  split
  next hs => exact .inl ⟨hs, rfl⟩
  next c t hs =>
    have hc : c ≠ 0 := by
      rintro rfl
      exact h₀ ((skip_suffix s).subset (hs ▸ List.mem_cons_self))
    refine .inr ?_
    rw [if_neg hc]
    split
    next hgt =>
      subst hgt
      have hone : ∃ t' u, Next s t' u ∧
          ((0x3e, (0x3e :: t, t), skip t) : UInt8 × Span × List UInt8) =
            (t'.code, (t'.bytes ++ u, u), skip u) :=
        ⟨.redir .gt, t, .sym hs (by simp), rfl⟩
      split
      next => exact hone
      next d u =>
        split
        next hd =>
          subst hd
          exact ⟨.redir .gtgt, u, .sym hs (by simp), rfl⟩
        next => exact hone
    next hgt =>
      split
      next hsym =>
        rcases symbols_cases hsym with h | ⟨t', hb, hcode, ht'⟩
        · exact absurd h hgt
        · refine ⟨t', t, .sym (by rw [hs, hb]; rfl) ht', ?_⟩
          rw [hb, hcode]
          rfl
      next hsym =>
        have hword : isWord c = true := by
          rw [isWord, head_skip hs, Bool.eq_false_iff.mpr hsym]
          rfl
        set e := (c :: t).dropWhile isWord with he
        have hsplit : (c :: t).takeWhile isWord ++ e = c :: t := List.takeWhile_append_dropWhile
        have hsub : c :: t <:+ s := hs ▸ skip_suffix s
        refine ⟨.word ((c :: t).takeWhile isWord), e, ⟨by rw [hs]; exact hsplit.symm, ?_⟩, ?_⟩
        · rintro w ⟨⟩
          exact wordText_takeWhile hword fun h => h₀ (hsub.subset h)
        · simp only [Token.bytes, Token.code, hsplit]

/-- What `peek` finds is what `gettoken` then reads. -/
theorem peek_cases {s : List UInt8} (toks : List UInt8) (h₀ : 0 ∉ s)
    (htoks : toks.all symbols.contains = true) :
    peek s toks = (false, skip s) ∨ (peek s toks = (true, skip s) ∧
      ∃ t u, Next (skip s) t u ∧ gettoken (skip s) = (t.code, (t.bytes ++ u, u), skip u) ∧
        t.isOneOf toks = true) := by
  have h₀' : 0 ∉ skip s := fun h => h₀ ((skip_suffix s).subset h)
  cases hb : (peek s toks).1 with
  | false => exact .inl (Prod.ext hb (peek_snd s toks))
  | true =>
      refine .inr ⟨Prod.ext hb (peek_snd s toks), ?_⟩
      unfold peek at hb
      cases hs : skip s with
      | nil => simp [hs] at hb
      | cons c v =>
          rw [← hs]
          simp only [hs, Bool.and_eq_true, List.contains_iff_mem] at hb
          rcases gettoken_cases h₀' with ⟨hnil, -⟩ | ⟨t, u, hnext, hg⟩
          · rw [skip_skip, hs] at hnil
            exact absurd hnil (List.cons_ne_nil _ _)
          · have hhead : t.bytes.head? = some c := by
              have := hnext.split
              rw [skip_skip, hs] at this
              rw [← List.head?_append_of_ne_nil _ hnext.bytes_ne_nil, ← this]
              rfl
            refine ⟨t, u, hnext, hg, Token.isOneOf_iff.mpr ⟨?_, c, hhead, hb.2⟩⟩
            rintro w rfl
            obtain ⟨d, v', rfl, hd, -⟩ := (hnext.word w rfl).1.cons
            obtain rfl := Option.some.inj hhead
            have hsym := List.all_eq_true.mp htoks d hb.2
            exact absurd ((contains_symbols_of_isWord hd).2 ▸ hsym) (by decide)

/-- What a function of the parser gives: a command of the grammar, with the string
after it, or a panic. -/
def Parsed (s₀ s : List UInt8) (D : List Token → Cmd (List UInt8) → Prop) :
    R (Cmd Span × List UInt8) → Prop
  | .ok (cmd, s') => ∃ ts, Reads ts s s' ∧ D ts cmd.text ∧ ∀ w ∈ cmd.words, WordAt s₀ w
  | .error e => e ≠ .outOfBounds ∧ e ≠ .endless

theorem Token.exists_word {t : Token} (h : t.code = 0x61) : ∃ w, t = .word w := by
  cases t with
  | word w => exact ⟨w, rfl⟩
  | redir op => cases op <;> exact absurd h (by decide)
  | _ => exact absurd h (by decide)

theorem Token.exists_redir {t : Token} (h : t.isOneOf [0x3c, 0x3e] = true) :
    ∃ op, t = .redir op := by
  cases t with
  | redir op => exact ⟨op, rfl⟩
  | word w => exact absurd h (by simp [Token.isOneOf])
  | _ => exact absurd h (by decide)

/-- The symbol that begins with a byte, other than `>`. -/
def Token.ofByte (c : UInt8) : Token :=
  if c = 0x3c then .redir .lt
  else if c = 0x7c then .bar
  else if c = 0x26 then .amp
  else if c = 0x3b then .semi
  else if c = 0x28 then .lpar
  else .rpar

theorem Token.eq_of_isOneOf {t : Token} {c : UInt8} (h : t.isOneOf [c] = true) (hc : c ≠ 0x3e) :
    t = .ofByte c := by
  obtain ⟨hw, d, hd, hdc⟩ := Token.isOneOf_iff.mp h
  obtain rfl := List.mem_singleton.mp hdc
  cases t with
  | word w => exact absurd rfl (hw w)
  | redir op =>
      cases op with
      | lt => exact Option.some.inj hd ▸ rfl
      | gt => exact absurd (Option.some.inj hd).symm hc
      | gtgt => exact absurd (Option.some.inj hd).symm hc
  | _ => exact Option.some.inj hd ▸ rfl

theorem Token.code_ne_zero (t : Token) : t.code ≠ 0 := by
  cases t with
  | redir op => cases op <;> decide
  | word w => exact (by decide : (0x61 : UInt8) ≠ 0)
  | _ => decide

section Sound

variable {s₀ s s' : List UInt8} {D D' : List Token → Cmd (List UInt8) → Prop}
  {r : R (Cmd Span × List UInt8)}

theorem Parsed.bind (h : Parsed s₀ s' D r) {f : Cmd Span × List UInt8 → R (Cmd Span × List UInt8)}
    (hf : ∀ cmd s'' ts, Reads ts s' s'' → D ts cmd.text → (∀ w ∈ cmd.words, WordAt s₀ w) →
      Parsed s₀ s D' (f (cmd, s''))) : Parsed s₀ s D' (r >>= f) := by
  cases r with
  | error e => exact h
  | ok p =>
      obtain ⟨ts, hreads, hD, hw⟩ := h
      exact hf p.1 p.2 ts hreads hD hw

/-- The tokens in front are read before. -/
theorem Parsed.of_reads {ts : List Token} (hr : Reads ts s s') (h : Parsed s₀ s' D' r)
    (hD : ∀ ts' T, D' ts' T → D (ts ++ ts') T) : Parsed s₀ s D r := by
  cases r with
  | error e => exact h
  | ok p =>
      obtain ⟨ts', hreads, hD', hw⟩ := h
      exact ⟨_, hr.trans hreads, hD _ _ hD', hw⟩

theorem Parsed.ok {cmd : Cmd Span} {ts : List Token} (hr : Reads ts s s') (hD : D ts cmd.text)
    (hw : ∀ w ∈ cmd.words, WordAt s₀ w) : Parsed s₀ s D (.ok (cmd, s')) :=
  ⟨ts, hr, hD, hw⟩

theorem Parsed.throw {e : Panic} (h : e ≠ .outOfBounds ∧ e ≠ .endless) :
    Parsed s₀ s D (throw e) := h

variable (h₀ : 0 ∉ s₀)

include h₀ in
theorem no_nul_of_suffix (hs : s <:+ s₀) : 0 ∉ s := fun h => h₀ (hs.subset h)

include h₀ in
theorem parseredirsLoop_sound (n : Nat) (cmd : Cmd Span) (s : List UInt8) (hs : s <:+ s₀)
    (hn : s.length < n) (hw : ∀ w ∈ cmd.words, WordAt s₀ w) :
    Parsed s₀ s (fun ts T => ∃ rs, ts = redirTokens rs ∧ T = wrap rs cmd.text)
      (parseredirsLoop n cmd s) := by
  induction n generalizing cmd s with
  | zero => exact absurd hn (Nat.not_lt_zero _)
  | succ n ih =>
      unfold parseredirsLoop
      have hs' := (skip_suffix s).trans hs
      rcases peek_cases [0x3c, 0x3e] (no_nul_of_suffix h₀ hs) (by decide) with
        hpeek | ⟨hpeek, t, u, hnext, hg, hone⟩
      · rw [hpeek]
        exact .ok (.skip s) ⟨[], rfl, rfl⟩ hw
      · have hu := (hnext.reads.suffix.trans hs')
        have hlen := hnext.length_lt
        have hle := (skip_suffix s).length_le
        rw [hpeek]
        dsimp only
        rw [if_pos rfl, hg]
        dsimp only
        rcases gettoken_cases (no_nul_of_suffix h₀ hu) with ⟨-, hg'⟩ | ⟨t', v, hnext', hg'⟩
        · rw [hg']
          exact .throw ⟨by simp, by simp⟩
        · rw [hg']
          dsimp only
          split
          next => exact .throw ⟨by simp, by simp⟩
          next hcode =>
            obtain ⟨op, rfl⟩ := Token.exists_redir hone
            obtain ⟨w, rfl⟩ := Token.exists_word (of_not_not hcode)
            have hv := hnext'.reads.suffix.trans hu
            have hlen' := hnext'.length_lt
            have hnew : ∀ w' ∈ (Cmd.redir cmd (w ++ v, v) op.mode op.fd).words, WordAt s₀ w' := by
              intro w' hw'
              rcases List.mem_append.mp hw' with h | h
              · exact hw w' h
              · rw [List.mem_singleton.mp h]
                exact hnext'.wordAt hu
            have hrec := ih (.redir cmd (w ++ v, v) op.mode op.fd) (skip v) hv (by omega) hnew
            have hreads := (Reads.skip s).trans (hnext.reads.trans hnext'.reads)
            have hgoal : Parsed s₀ s (fun ts T => ∃ rs, ts = redirTokens rs ∧ T = wrap rs cmd.text)
                (parseredirsLoop n (.redir cmd (w ++ v, v) op.mode op.fd) (skip v)) := by
              refine .of_reads hreads hrec ?_
              rintro ts' T ⟨rs, rfl, rfl⟩
              refine ⟨(op, w) :: rs, rfl, ?_⟩
              rw [wrap_cons, Cmd.text, Cmd.map, Span.text_append]
              rfl
            cases op with
            | lt => exact hgoal
            | gt => exact hgoal
            | gtgt => exact hgoal

include h₀ in
theorem parseredirs_sound (cmd : Cmd Span) (s : List UInt8) (hs : s <:+ s₀)
    (hw : ∀ w ∈ cmd.words, WordAt s₀ w) :
    Parsed s₀ s (fun ts T => ∃ rs, ts = redirTokens rs ∧ T = wrap rs cmd.text)
      (parseredirs cmd s) :=
  parseredirsLoop_sound h₀ _ cmd s hs (Nat.lt_succ_self _) hw

theorem words_addArg {w w' : Span} (cmd : Cmd Span) (h : w' ∈ (addArg w cmd).words) :
    w' = w ∨ w' ∈ cmd.words := by
  induction cmd with
  | exec argv =>
      simp only [addArg, Cmd.words, List.mem_append, List.mem_singleton] at h ⊢
      exact h.symm
  | redir cmd file mode fd ih =>
      simp only [addArg, Cmd.words, List.mem_append] at h ⊢
      grind
  | pipe _ _ => exact .inr h
  | list _ _ => exact .inr h
  | back _ => exact .inr h

include h₀ in
theorem parseargs_sound (n : Nat) (ret : Cmd Span) (argc : Nat) (s : List UInt8) (hs : s <:+ s₀)
    (hn : s.length < n) (hargc : argc < MAXARGS) (rs : List Redir) (ws : List (List UInt8))
    (hret : ret.text = wrap rs (.exec ws)) (hw : ∀ w ∈ ret.words, WordAt s₀ w) :
    Parsed s₀ s (fun ts T => ∃ args, ts = argTokens args ∧ argc + args.length < MAXARGS ∧
      T = wrap (rs ++ args.flatMap (·.2)) (.exec (ws ++ args.map (·.1))))
      (parseargs n ret argc s) := by
  induction n generalizing ret argc s rs ws with
  | zero => exact absurd hn (Nat.not_lt_zero _)
  | succ n ih =>
      have hs' := (skip_suffix s).trans hs
      have hle := (skip_suffix s).length_le
      have hend (s' : List UInt8) (hr : Reads [] s s') :
          Parsed s₀ s (fun ts T => ∃ args, ts = argTokens args ∧ argc + args.length < MAXARGS ∧
            T = wrap (rs ++ args.flatMap (·.2)) (.exec (ws ++ args.map (·.1))))
            (parseargs.parseargsEnd ret argc s') := by
        unfold parseargs.parseargsEnd
        rw [if_neg (by omega)]
        exact .ok hr ⟨[], rfl, hargc, by simpa using hret⟩ hw
      unfold parseargs
      dsimp only
      rcases peek_cases [0x7c, 0x29, 0x26, 0x3b] (no_nul_of_suffix h₀ hs) (by decide) with
        hpeek | ⟨hpeek, -⟩
      · rw [hpeek, if_neg Bool.false_ne_true]
        dsimp only
        rcases gettoken_cases (no_nul_of_suffix h₀ hs') with ⟨hnil, hg⟩ | ⟨t, u, hnext, hg⟩
        · rw [hg, if_pos rfl]
          rw [skip_skip] at hnil
          exact hend [] (hnil ▸ Reads.skip s)
        · rw [hg]
          dsimp only
          rw [if_neg t.code_ne_zero]
          split
          next => exact .throw ⟨by simp, by simp⟩
          next hcode =>
            rw [if_neg (by omega)]
            split
            next => exact .throw ⟨by simp, by simp⟩
            next hmax =>
              obtain ⟨w, rfl⟩ := Token.exists_word (of_not_not hcode)
              have hu := hnext.reads.suffix.trans hs'
              have hlen := hnext.length_lt
              have hnew : ∀ w' ∈ (addArg (w ++ u, u) ret).words, WordAt s₀ w' := by
                intro w' hw'
                rcases words_addArg ret hw' with rfl | h
                · exact hnext.wordAt hs'
                · exact hw w' h
              refine (parseredirs_sound h₀ _ (skip u) hu hnew).bind ?_
              rintro ret' s' ts hreads ⟨rs', rfl, hret'⟩ hw'
              rw [Cmd.text_addArg, Span.text_append, hret, addArg_wrap, ← wrap_append] at hret'
              have hlen' := hreads.suffix.length_le
              have hrec := ih ret' (argc + 1) s' (hreads.suffix.trans hu) (by omega) (by omega)
                (rs ++ rs') (ws ++ [w]) hret' hw'
              refine .of_reads (((Reads.skip s).trans hnext.reads).trans hreads) hrec ?_
              rintro ts T ⟨args, rfl, hbound, rfl⟩
              refine ⟨(w, rs') :: args, ?_, ?_, ?_⟩
              · simp [argTokens]
              · rw [List.length_cons]
                omega
              · simp
      · rw [hpeek, if_pos rfl]
        exact hend _ (.skip s)

include h₀ in
theorem backLoop_sound (n : Nat) (cmd : Cmd Span) (s : List UInt8) (hs : s <:+ s₀)
    (hn : s.length < n) (hw : ∀ w ∈ cmd.words, WordAt s₀ w) :
    Parsed s₀ s (fun ts T => ∃ k, ts = List.replicate k .amp ∧ T = backs k cmd.text)
      (backLoop n cmd s) := by
  induction n generalizing cmd s with
  | zero => exact absurd hn (Nat.not_lt_zero _)
  | succ n ih =>
      have hs' := (skip_suffix s).trans hs
      have hle := (skip_suffix s).length_le
      unfold backLoop
      dsimp only
      rcases peek_cases [0x26] (no_nul_of_suffix h₀ hs) (by decide) with
        hpeek | ⟨hpeek, t, u, hnext, hg, hone⟩
      · rw [hpeek]
        exact .ok (.skip s) ⟨0, rfl, rfl⟩ hw
      · obtain rfl := Token.eq_of_isOneOf hone (by decide)
        have hlen := hnext.length_lt
        rw [hpeek, if_pos rfl, hg]
        have hrec := ih (.back cmd) (skip u) (hnext.reads.suffix.trans hs') (by omega) hw
        refine .of_reads ((Reads.skip s).trans hnext.reads) hrec ?_
        rintro ts T ⟨k, rfl, rfl⟩
        exact ⟨k + 1, rfl, rfl⟩

/-- The fuel that a nonterminal takes. -/
def Nonterminal.fuel : Nonterminal → Nat
  | .line => 4
  | .pipe => 3
  | .exec => 2

/-- With enough fuel, the function returns what its nonterminal derives, or
panics. -/
def SoundAt (s₀ : List UInt8) (n : Nat) (nt : Nonterminal) : Prop :=
  ∀ s, s <:+ s₀ → 4 * s.length + nt.fuel ≤ n → Parsed s₀ s (Derives nt) (nt.parse n s)

include h₀ in
theorem parseline_sound {n : Nat} (hpipe : SoundAt s₀ n .pipe) (hline : SoundAt s₀ n .line) :
    SoundAt s₀ (n + 1) .line := by
  intro s hs hn
  simp only [Nonterminal.fuel] at hn
  simp only [Nonterminal.parse]
  unfold parseline
  refine (hpipe s hs (by simp only [Nonterminal.fuel]; omega)).bind ?_
  intro cmd s₁ p hp hD hw
  refine (backLoop_sound h₀ _ cmd s₁ (hp.suffix.trans hs) (Nat.lt_succ_self _) hw).bind ?_
  rintro cmd' s₂ ts hk ⟨k, rfl, hT⟩ hw'
  have hs₂ := (hk.suffix.trans (hp.suffix.trans hs))
  dsimp only
  rcases peek_cases [0x3b] (no_nul_of_suffix h₀ hs₂) (by decide) with
    hpeek | ⟨hpeek, t, u, hnext, hg, hone⟩
  · rw [hpeek]
    refine .ok ((hp.trans hk).trans (.skip s₂)) ?_ hw'
    rw [List.append_nil, hT]
    exact .line k hD
  · obtain rfl := Token.eq_of_isOneOf hone (by decide)
    have hlen := hnext.length_lt
    have hle := (skip_suffix s₂).length_le
    have hle' := (hk.suffix.trans hp.suffix).length_le
    have hu := hnext.reads.suffix.trans ((skip_suffix s₂).trans hs₂)
    rw [hpeek]
    dsimp only
    rw [if_pos rfl, hg]
    refine (hline (skip u) hu (by simp only [Nonterminal.fuel]; omega)).bind ?_
    intro right s₃ l hl hD' hw''
    have hreads := hp.trans (hk.trans ((Reads.skip s₂).trans (hnext.reads.trans hl)))
    refine .ok hreads ?_ ?_
    · have := Derives.seq k hD hD'
      rw [← hT] at this
      exact this
    · intro w hin
      exact (List.mem_append.mp hin).elim (hw' w) (hw'' w)

include h₀ in
theorem parsepipe_sound {n : Nat} (hexec : SoundAt s₀ n .exec) (hpipe : SoundAt s₀ n .pipe) :
    SoundAt s₀ (n + 1) .pipe := by
  intro s hs hn
  simp only [Nonterminal.fuel] at hn
  simp only [Nonterminal.parse]
  unfold parsepipe
  refine (hexec s hs (by simp only [Nonterminal.fuel]; omega)).bind ?_
  intro cmd s₁ e he hD hw
  have hs₁ := he.suffix.trans hs
  dsimp only
  rcases peek_cases [0x7c] (no_nul_of_suffix h₀ hs₁) (by decide) with
    hpeek | ⟨hpeek, t, u, hnext, hg, hone⟩
  · rw [hpeek]
    refine .ok (he.trans (.skip s₁)) ?_ hw
    rw [List.append_nil]
    exact .pipe hD
  · obtain rfl := Token.eq_of_isOneOf hone (by decide)
    have hlen := hnext.length_lt
    have hle := (skip_suffix s₁).length_le
    have hle' := he.suffix.length_le
    have hu := hnext.reads.suffix.trans ((skip_suffix s₁).trans hs₁)
    rw [hpeek]
    dsimp only
    rw [if_pos rfl, hg]
    refine (hpipe (skip u) hu (by simp only [Nonterminal.fuel]; omega)).bind ?_
    intro right s₂ p hp hD' hw'
    refine .ok (he.trans ((Reads.skip s₁).trans (hnext.reads.trans hp))) (.bar hD hD') ?_
    intro w hin
    exact (List.mem_append.mp hin).elim (hw w) (hw' w)

include h₀ in
theorem parseblock_sound {n : Nat} (hline : SoundAt s₀ n .line) (s : List UInt8) (hs : s <:+ s₀)
    (hn : 4 * s.length + 1 ≤ n + 1) :
    Parsed s₀ s (Derives .exec) (parseblock (n + 1) s) := by
  have hskip := (skip_suffix s).trans hs
  have hskiple := (skip_suffix s).length_le
  unfold parseblock
  dsimp only
  rcases peek_cases [0x28] (no_nul_of_suffix h₀ hs) (by decide) with
    hpeek | ⟨hpeek, t, u, hnext, hg, hone⟩
  · rw [hpeek]
    exact .throw ⟨by simp, by simp⟩
  · obtain rfl := Token.eq_of_isOneOf hone (by decide)
    have hlen := hnext.length_lt
    have hu := hnext.reads.suffix.trans hskip
    rw [hpeek]
    dsimp only
    rw [hg]
    refine (hline (skip u) hu (by simp only [Nonterminal.fuel]; omega)).bind ?_
    intro cmd s₁ l hl hD hw
    have hs₁ := hl.suffix.trans hu
    dsimp only
    rcases peek_cases [0x29] (no_nul_of_suffix h₀ hs₁) (by decide) with
      hpeek | ⟨hpeek, t, v, hnext', hg', hone⟩
    · rw [hpeek]
      exact .throw ⟨by simp, by simp⟩
    · obtain rfl := Token.eq_of_isOneOf hone (by decide)
      have hv := hnext'.reads.suffix.trans ((skip_suffix s₁).trans hs₁)
      have hreads := (Reads.skip s).trans (hnext.reads.trans
        (hl.trans ((Reads.skip s₁).trans hnext'.reads)))
      rw [hpeek]
      dsimp only
      rw [hg']
      refine .of_reads hreads (parseredirs_sound h₀ cmd (skip v) hv hw) ?_
      rintro ts T ⟨rs, rfl, rfl⟩
      have := Derives.block rs hD
      simpa [Token.ofByte] using this

include h₀ in
theorem parseexec_sound {n : Nat} (hline : SoundAt s₀ n .line) : SoundAt s₀ (n + 2) .exec := by
  intro s hs hn
  simp only [Nonterminal.fuel] at hn
  simp only [Nonterminal.parse]
  have hskip := (skip_suffix s).trans hs
  have hskiple := (skip_suffix s).length_le
  unfold parseexec
  dsimp only
  rcases peek_cases [0x28] (no_nul_of_suffix h₀ hs) (by decide) with hpeek | ⟨hpeek, -⟩
  · rw [hpeek, if_neg Bool.false_ne_true]
    refine (parseredirs_sound h₀ (.exec []) (skip s) hskip (by simp [Cmd.words])).bind ?_
    rintro ret s₁ ts hr ⟨rs, rfl, hret⟩ hw
    refine .of_reads ((Reads.skip s).trans hr) (parseargs_sound h₀ _ ret 0 s₁
      (hr.suffix.trans hskip) (Nat.lt_succ_self _) (by decide) rs [] hret hw) ?_
    rintro ts T ⟨args, rfl, hbound, rfl⟩
    exact .simple rs args (by omega)
  · rw [hpeek, if_pos rfl]
    exact .of_reads (.skip s) (parseblock_sound h₀ hline (skip s) hskip (by omega)) fun _ _ h => h

include h₀ in
/-- **Soundness**: every function of the parser returns what its nonterminal
derives, or panics. -/
theorem parse_sound (n : Nat) (nt : Nonterminal) : SoundAt s₀ n nt := by
  induction n using Nat.strong_induction_on generalizing nt with
  | _ n ih =>
      intro s hs hn
      obtain ⟨m, rfl⟩ : ∃ m, n = m + 2 :=
        ⟨n - 2, by cases nt <;> simp only [Nonterminal.fuel] at hn <;> omega⟩
      have hsub (nt : Nonterminal) := ih (m + 1) (Nat.lt_succ_self _) nt
      cases nt with
      | line => exact parseline_sound h₀ (hsub .pipe) (hsub .line) s hs hn
      | pipe => exact parsepipe_sound h₀ (hsub .exec) (hsub .pipe) s hs hn
      | exec => exact parseexec_sound h₀ (ih m (by omega) .line) s hs hn

end Sound

/-! ## the strings in memory -/

theorem nulterminate_eq (n : Nat) (cmd : Cmd Span) (buf : Buf) :
    nulterminate n cmd buf = cmd.words.foldl (fun buf w => terminate n buf w.2) buf := by
  induction cmd generalizing buf with
  | exec argv => rfl
  | redir cmd file mode fd ih => simp only [nulterminate, Cmd.words, List.foldl_append, ih]; rfl
  | pipe left right ihl ihr => simp only [nulterminate, Cmd.words, List.foldl_append, ihl, ihr]
  | list left right ihl ihr => simp only [nulterminate, Cmd.words, List.foldl_append, ihl, ihr]
  | back cmd ih => exact ih buf

theorem WordAt.addr_eq {s₀ : List UInt8} {w : Span} (h : WordAt s₀ w) :
    addr s₀.length w.2 = addr s₀.length w.1 + w.text.length ∧ addr s₀.length w.2 ≤ s₀.length := by
  have hlen := congrArg List.length h.split
  have hle := h.suffix.length_le
  rw [List.length_append] at hlen
  unfold addr
  omega

/-- No word ends inside another one. -/
theorem WordAt.not_inside {s₀ : List UInt8} {w w' : Span} (h : WordAt s₀ w) (h' : WordAt s₀ w') :
    addr s₀.length w'.2 < addr s₀.length w.1 ∨ addr s₀.length w.2 ≤ addr s₀.length w'.2 := by
  by_contra hin
  have hle := h.suffix.length_le
  have hle' := h'.suffix.length_le
  have hlen := congrArg List.length h.split
  have hlen' := congrArg List.length h'.split
  rw [List.length_append] at hlen hlen'
  unfold addr at hin
  -- the end of `w'` would begin with a byte of `w`
  have hend : w'.2 <:+ s₀ := List.IsSuffix.trans ⟨_, h'.split.symm⟩ h'.suffix
  obtain ⟨p, hp⟩ := List.suffix_of_suffix_length_le hend h.suffix (by omega)
  rw [h.split, List.append_eq_append_iff] at hp
  rcases hp with ⟨a, ha, he⟩ | ⟨b, -, he⟩
  · cases a with
    | nil =>
        have := congrArg List.length he
        rw [List.nil_append] at this
        omega
    | cons c a =>
        have hword := h.word.isWord c (ha ▸ List.mem_append_right _ List.mem_cons_self)
        rw [h'.ends c (by rw [he]; rfl)] at hword
        exact absurd hword (by decide)
  · have := congrArg List.length he
    rw [List.length_append] at this
    omega

/-- The bytes of the word `w` stand in memory, with one more byte after them, which
is the terminating `0` if `z`. -/
def Stands (s₀ : List UInt8) (w : Span) (z : Prop) (buf : Buf) : Prop :=
  ∃ c rest, buf.drop (addr s₀.length w.1) = w.text ++ c :: rest ∧ (z → c = 0)

theorem Stands.terminate {s₀ : List UInt8} {w w' : Span} {z : Prop} {buf : Buf}
    (hs : Stands s₀ w z buf) (h : WordAt s₀ w) (h' : WordAt s₀ w') :
    Stands s₀ w (z ∨ w = w') (terminate s₀.length buf w'.2) := by
  obtain ⟨c, rest, hdrop, hc⟩ := hs
  have haddr := h.addr_eq.1
  unfold Sh.terminate Stands
  rw [List.drop_set]
  rcases h.not_inside h' with hlt | hge
  · rw [if_pos hlt]
    refine ⟨c, rest, hdrop, ?_⟩
    rintro (hz | rfl)
    · exact hc hz
    · omega
  · rw [if_neg (by omega), hdrop, List.set_append_right _ _ (by omega)]
    by_cases heq : addr s₀.length w.2 = addr s₀.length w'.2
    · refine ⟨0, rest, ?_, fun _ => rfl⟩
      rw [show addr s₀.length w'.2 - addr s₀.length w.1 - w.text.length = 0 by omega]
      rfl
    · obtain ⟨k, hk⟩ : ∃ k, addr s₀.length w'.2 - addr s₀.length w.1 - w.text.length = k + 1 :=
        ⟨_, (Nat.succ_pred_eq_of_pos (by omega)).symm⟩
      rw [hk]
      refine ⟨c, rest.set k 0, rfl, ?_⟩
      rintro (hz | rfl)
      · exact hc hz
      · exact absurd rfl heq

theorem Stands.foldl {s₀ : List UInt8} {w : Span} {z : Prop} {buf : Buf}
    (hs : Stands s₀ w z buf) (h : WordAt s₀ w) (ws : List Span) (hws : ∀ w' ∈ ws, WordAt s₀ w') :
    Stands s₀ w (z ∨ w ∈ ws) (ws.foldl (fun buf w => Sh.terminate s₀.length buf w.2) buf) := by
  induction ws generalizing z buf with
  | nil => simpa using hs
  | cons w' ws ih =>
      have hstep := hs.terminate h (hws w' List.mem_cons_self)
      have := ih hstep fun w'' h'' => hws w'' (List.mem_cons_of_mem _ h'')
      simpa [or_assoc] using this

theorem WordAt.stands {s₀ : List UInt8} {w : Span} (h : WordAt s₀ w) :
    Stands s₀ w False (s₀ ++ [0]) := by
  have hdrop := List.suffix_iff_eq_drop.mp h.suffix
  have hle := h.suffix.length_le
  unfold Stands addr
  rw [List.drop_append_of_le_length (by omega), ← hdrop, h.split, List.append_assoc]
  obtain ⟨c, rest, he⟩ : ∃ c rest, w.2 ++ [(0 : UInt8)] = c :: rest :=
    List.exists_cons_of_ne_nil (by simp)
  exact ⟨c, rest, by rw [he], False.elim⟩

theorem Stands.cstr {s₀ : List UInt8} {w : Span} {buf : Buf} (hs : Stands s₀ w True buf)
    (h : WordAt s₀ w) : cstr s₀.length buf w.1 = w.text := by
  obtain ⟨c, rest, hdrop, hc⟩ := hs
  have hne : ∀ c ∈ w.text, (c != 0) = true := by
    intro c hin
    simp only [bne_iff_ne, ne_eq]
    rintro rfl
    exact h.word.no_nul hin
  unfold Sh.cstr
  rw [hdrop, hc trivial, List.takeWhile_append_of_pos hne]
  simp

theorem Cmd.map_congr {α β : Type} {f g : α → β} (cmd : Cmd α) (h : ∀ w ∈ cmd.words, f w = g w) :
    cmd.map f = cmd.map g := by
  induction cmd with
  | exec argv => simpa [Cmd.map, Cmd.words] using h
  | redir cmd file mode fd ih =>
      simp only [Cmd.words, List.mem_append, List.mem_singleton] at h
      rw [Cmd.map, Cmd.map, ih fun w hw => h w (.inl hw), h file (.inr rfl)]
  | pipe left right ihl ihr =>
      simp only [Cmd.words, List.mem_append] at h
      rw [Cmd.map, Cmd.map, ihl fun w hw => h w (.inl hw), ihr fun w hw => h w (.inr hw)]
  | list left right ihl ihr =>
      simp only [Cmd.words, List.mem_append] at h
      rw [Cmd.map, Cmd.map, ihl fun w hw => h w (.inl hw), ihr fun w hw => h w (.inr hw)]
  | back cmd ih => rw [Cmd.map, Cmd.map, ih h]

/-- **The words of a command** are the strings that its pointers point to. -/
theorem readback_eq {s₀ : List UInt8} {cmd : Cmd Span} (h : ∀ w ∈ cmd.words, WordAt s₀ w) :
    readback s₀.length cmd (nulterminate s₀.length cmd (s₀ ++ [0])) = cmd.text := by
  unfold readback Cmd.text
  refine cmd.map_congr fun w hw => ?_
  have hstands := ((h w hw).stands.foldl (h w hw) cmd.words h)
  rw [← nulterminate_eq] at hstands
  obtain ⟨c, rest, hdrop, hc⟩ := hstands
  exact Stands.cstr ⟨c, rest, hdrop, fun _ => hc (.inr hw)⟩ (h w hw)

/-! ## the parser -/

/-- `parsecmd` in terms of `parseline`. -/
theorem parsecmd_eq (s : CString) :
    parsecmd s = match parseline (4 * s.bytes.length + 4) s.bytes with
      | .error e => .error e
      | .ok (cmd, rest) =>
          if skip rest = [] then
            .ok (cmd, nulterminate s.bytes.length cmd (s.bytes ++ [0]))
          else .error .syntaxErr := by
  unfold parsecmd
  dsimp only
  cases parseline (4 * s.bytes.length + 4) s.bytes with
  | error e => rfl
  | ok p =>
      simp only [bind, Except.bind, peek_snd]
      split
      next => rfl
      next h =>
        rw [if_pos (of_not_not h)]
        rfl

theorem parseline_parsed (s : CString) :
    Parsed s.bytes s.bytes (Derives .line) (parseline (4 * s.bytes.length + 4) s.bytes) :=
  parse_sound s.no_nul _ .line s.bytes List.suffix_rfl (Nat.le_refl _)

/-- What `parsecmd` returns: a tree of words of the string, and memory as
`nulterminate` leaves it. -/
theorem parsecmd_parsed {s : CString} {cmd : Cmd Span} {buf : Buf}
    (h : parsecmd s = .ok (cmd, buf)) :
    buf = nulterminate s.bytes.length cmd (s.bytes ++ [0]) ∧ (∀ w ∈ cmd.words, WordAt s.bytes w) ∧
      Sentence s.bytes cmd.text := by
  have hline := parseline_parsed s
  rw [parsecmd_eq] at h
  split at h
  next => cases h
  next cmd' rest hr =>
    rw [hr] at hline
    obtain ⟨ts, hreads, hD, hw⟩ := hline
    split at h
    next hrest =>
      cases h
      have hspells : Spells [] rest := by
        apply Spells.of_skip
        rw [hrest]
        exact .nil fun _ hc => absurd hc List.not_mem_nil
      refine ⟨rfl, hw, ts, ?_, hD⟩
      rw [← List.append_nil ts]
      exact hreads.spells [] hspells
    next => cases h

theorem parsecmd_ok {s : CString} {cmd : Cmd Span} {buf : Buf} (h : parsecmd s = .ok (cmd, buf)) :
    Sentence s.bytes cmd.text ∧ readback s.bytes.length cmd buf = cmd.text := by
  obtain ⟨rfl, hw, hsent⟩ := parsecmd_parsed h
  exact ⟨hsent, readback_eq hw⟩

theorem parsecmd_error {s : CString} {e : Panic} (h : parsecmd s = .error e) :
    e ≠ .outOfBounds ∧ e ≠ .endless := by
  have hline := parseline_parsed s
  rw [parsecmd_eq] at h
  split at h
  next e' hr =>
    cases h
    rwa [hr] at hline
  next cmd rest hr =>
    split at h
    next => cases h
    next =>
      cases h
      exact ⟨by simp, by simp⟩

theorem parsecmd_of_sentence {s : CString} {T : Cmd (List UInt8)} (h : Sentence s.bytes T) :
    ∃ cmd buf, parsecmd s = .ok (cmd, buf) ∧ cmd.text = T := by
  obtain ⟨ts, hs, hD⟩ := h
  rw [← List.append_nil ts] at hs
  rcases hD.complete (4 * s.bytes.length + 4) s.bytes [] hs (by simp [Follows]) with
    ⟨cmd, rest, hr, hT, hrest⟩ | hend
  · refine ⟨cmd, nulterminate s.bytes.length cmd (s.bytes ++ [0]), ?_, hT⟩
    rw [parsecmd_eq, show parseline _ _ = .ok (cmd, rest) from hr]
    dsimp only
    rw [if_pos hrest.skip_nil]
  · have hline := parseline_parsed s
    rw [show parseline _ _ = .error .endless from hend] at hline
    exact absurd rfl hline.2

/-- **The parser accepts exactly its grammar**: the commands it returns, with the
words that are then in memory, are the trees of the derivations, and it stops only
in a panic. -/
theorem parsecmd_iff (s : CString) :
    (∀ T, (∃ cmd buf, parsecmd s = .ok (cmd, buf) ∧ readback s.bytes.length cmd buf = T) ↔
      Sentence s.bytes T) ∧
    (∀ e, parsecmd s = .error e → e ≠ .outOfBounds ∧ e ≠ .endless) := by
  refine ⟨fun T => ⟨?_, ?_⟩, fun e h => parsecmd_error h⟩
  · rintro ⟨cmd, buf, h, rfl⟩
    obtain ⟨hsent, hread⟩ := parsecmd_ok h
    rwa [hread]
  · intro hsent
    obtain ⟨cmd, buf, h, rfl⟩ := parsecmd_of_sentence hsent
    exact ⟨cmd, buf, h, (parsecmd_ok h).2⟩

end Xv6.Sh
