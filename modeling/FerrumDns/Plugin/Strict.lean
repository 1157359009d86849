import FerrumDns.Fallible
import FerrumDns.Plugin.Parse
import FerrumDns.Text.Splitting

/-! What the words of a step say, read strictly: every word is an operand its command takes
and is well formed as one. The parsers read less strictly. Each looks at the first operand
at most and leaves the words after it; some put a default in place of an operand that is
missing or malformed. Where none of this happens, what they accept is what the words say. -/

namespace FerrumDns

open Text Dnsutil

namespace Expression

/-! ### The meaning of a step -/

section Operands

variable {α : Type}

/-- A command that takes no operand. -/
def alone (a : α) : List Text → Option α
  | [] => some a
  | _ => none

/-- A command that takes one. -/
def one (read : Text → Option α) : List Text → Option α
  | [w] => read w
  | _ => none

end Operands

def number (w : Text) : Option U32 := parseBelow (2 ^ 32) w

def rcodeNames : List (Text × ResponseCode) :=
  [("NOERROR".toList, .NoError), ("FORMERR".toList, .FormErr), ("SERVFAIL".toList, .ServFail),
    ("NXDOMAIN".toList, .NXDomain), ("NOTIMP".toList, .NotImp), ("REFUSED".toList, .Refused)]

/-- A name, its letters in either case, or a number of sixteen bits. -/
def rcode (w : Text) : Option ResponseCode :=
  (rcodeNames.lookup (uppercase w)).or <|
    (parseBelow (2 ^ 16) (uppercase w)).map fun v => codeFromU16 (.ofFin v)

/-- One number, or two in order with a hyphen between them. -/
def range (w : Text) : Option (U32 × U32) :=
  match splitOnce '-' w with
  | none => (number w).map fun n => (n, n)
  | some (a, b) => (number a).bind fun low => (number b).bind fun high =>
    if low ≤ high then some (low, high) else none

/-- The tag after its dollar sign. -/
def tag (w : Text) : Tag := String.ofList (trimStart (· == '$') w)

/-- The command some words are. -/
def command (ws : List Text) : Option Builtin :=
  match String.ofList (ws.headD []) with
  | "accept" => alone .Accept ws.tail
  | "return" => alone .Return ws.tail
  | "drop_resp" | "drop" => alone .DropResp ws.tail
  | "prefer_ipv4" => alone .PreferV4 ws.tail
  | "prefer_ipv6" => alone .PreferV6 ws.tail
  | "reject" => one (fun w => (rcode w).map .Reject) ws.tail
  | "ttl" => one (fun w => (range w).map fun (low, high) => .Ttl low high) ws.tail
  | "mark" => one (fun w => (number w).map .Mark) ws.tail
  | "goto" | "jump" => one (fun w => some (.Goto (tag w))) ws.tail
  | "no_ecs" | "_no_ecs" => alone .NoEcs ws.tail
  | _ => none

variable (sets : Sets)

/-- Every word is a type, and there is one at least. -/
def types (ws : List Text) : Option (List RecordType) :=
  if ws = [] then none else ws.mapM (qtypeFromStr sets.recordType)

/-- The matcher some words are. -/
def matcher (ws : List Text) : Option Matcher :=
  match String.ofList (ws.headD []) with
  | "has_resp" => alone .HasResp ws.tail
  | "has_wanted_ans" => alone .HasWantedAns ws.tail
  | "qname" => one (fun w => (sets.domains (tag w)).map .Qname) ws.tail
  | "qtype" => (types sets ws.tail).map .Qtype
  | "client_ip" => one (fun w => (sets.ips (tag w)).map .ClientIp) ws.tail
  | "resp_ip" => one (fun w => (sets.ips (tag w)).map .RespIp) ws.tail
  | "rcode" => one (fun w => (rcode w).map fun c => .Rcode (rcodeToU16 c)) ws.tail
  | "mark" => one (fun w => (number w).map .Mark) ws.tail
  | "ecs" | "has_ecs" => alone .HasEcs ws.tail
  | _ => none

/-- Some exclamation marks, with blanks after each, and what stands after them. -/
inductive Bangs : Text → ℕ → Text → Prop where
  | none {t : Text} (h : t.head? ≠ some '!') : Bangs t 0 t
  | bang {rest t : Text} {n : ℕ} (h : Bangs (trimStart isWhitespace rest) n t) :
      Bangs ('!' :: rest) (n + 1) t

/-- A matcher negated once for each exclamation mark. -/
def Says (expr : Text) (m : Matcher) : Prop :=
  ∃ n t inner, Bangs (trim expr) n t ∧ matcher sets (words t) = some inner ∧
    m = if n % 2 = 1 then .Neg inner else inner

/-! ### Words that are left or replaced -/

section Kinds

variable {α : Type}

/-- Words after a good operand. -/
def Surplus (read : Text → Option α) (operands : List Text) : Prop :=
  ∃ w v more, operands = w :: v :: more ∧ (read w).isSome

/-- Not one good operand. -/
def Careless (read : Text → Option α) (operands : List Text) : Prop :=
  ¬ ∃ w, operands = [w] ∧ (read w).isSome

end Kinds

/-- What a command is accepted with and does not say. -/
def commandMisread (ws : List Text) : Prop :=
  match String.ofList (ws.headD []) with
  | "accept" | "return" | "drop_resp" | "drop" | "prefer_ipv4" | "prefer_ipv6" | "no_ecs"
  | "_no_ecs" => ws.tail ≠ []
  | "reject" => Careless rcode ws.tail
  | "ttl" => Surplus range ws.tail
  | "mark" => ws.tail = [] ∨ Surplus number ws.tail
  | "goto" | "jump" => Surplus (fun w => some (tag w)) ws.tail
  | _ => False

/-- What a matcher is accepted with and does not say. -/
def matcherMisread (ws : List Text) : Prop :=
  match String.ofList (ws.headD []) with
  | "has_resp" | "has_wanted_ans" | "ecs" | "has_ecs" => ws.tail ≠ []
  | "qname" => Surplus (fun w => sets.domains (tag w)) ws.tail
  | "client_ip" | "resp_ip" => Surplus (fun w => sets.ips (tag w)) ws.tail
  | "qtype" => ws.tail = [] ∨ ∃ w ∈ ws.tail, qtypeFromStr sets.recordType w = none
  | "rcode" => Careless rcode ws.tail
  | "mark" => Careless number ws.tail
  | _ => False

/-! ### Operands -/

theorem rcodeFromStr_eq (w : Text) : rcodeFromStr w = (rcode w).getD .Refused := by
  unfold rcodeFromStr rcode
  generalize uppercase w = t
  split
  case h_13 hNOERROR h0 hFORMERR h1 hSERVFAIL h2 hNXDOMAIN h3 hNOTIMP h4 hREFUSED h5 =>
    have hlookup : rcodeNames.lookup t = none := by
      rw [List.lookup_eq_none_iff]
      simp only [rcodeNames, List.forall_mem_cons, bne_iff_ne, ne_eq]
      refine ⟨?_, ?_, ?_, ?_, ?_, ?_, nofun⟩
      all_goals rintro rfl
      · exact hNOERROR rfl
      · exact hFORMERR rfl
      · exact hSERVFAIL rfl
      · exact hNXDOMAIN rfl
      · exact hNOTIMP rfl
      · exact hREFUSED rfl
    rw [hlookup, Option.none_or, String.toList_ofList]
  all_goals
    rename_i h
    have ht := congrArg String.toList h
    rw [String.toList_ofList] at ht
    subst ht
    decide +kernel

/-- The range of a word is read as it stands. -/
theorem parseTtlRange_eq_ok {w : Text} (hw : ∀ c ∈ w, isWhitespace c = false) {r : U32 × U32} :
    parseTtlRange w = .ok r ↔ range w = some r := by
  unfold parseTtlRange range number
  cases hcut : splitOnce '-' w with
  | none => cases parseBelow (2 ^ 32) w <;> simp
  | some ab =>
    obtain ⟨a, b⟩ := ab
    have hsub : w = a ++ '-' :: b := eq_of_splitOnce hcut
    have ha : trim a = a := trim_of_not_white fun c hc => hw c (by simp [hsub, hc])
    have hb : trim b = b := trim_of_not_white fun c hc => hw c (by simp [hsub, hc])
    simp only [ha, hb]
    cases parseBelow (2 ^ 32) a with
    | none => simp
    | some low =>
      cases parseBelow (2 ^ 32) b with
      | none => simp
      | some high =>
        by_cases h : high < low
        · simp [h, not_le.2 h]
        · simp [h, not_lt.1 h]

section Readers

variable {α β : Type} {operands : List Text}

theorem map_ok_iff {x : Except Error β} {o : Option β} (h : ∀ r, x = .ok r ↔ o = some r)
    (g : β → α) (b : α) : x.map g = .ok b ↔ o.map g = some b := by
  rw [Fallible.map_eq_ok, Option.map_eq_some_iff]
  simp only [h]

/-- A command without operands, the words after it being left. -/
theorem alone_iff (a : α) :
    (∀ b, (Except.ok a : Except Error α) = .ok b → alone a operands = some b) ↔
      ¬ operands ≠ [] := by
  cases operands with
  | nil => simp [alone]
  | cons w ws => simp [alone]

/-- A command with one operand, a default standing in for what is missing or malformed. -/
theorem careless_iff {f : List Text → α} {read : Text → Option β} {g : β → α}
    (h : ∀ w a, read w = some a → f [w] = g a) :
    (∀ b, (Except.ok (f operands) : Except Error α) = .ok b →
      one (fun w => (read w).map g) operands = some b) ↔ ¬ Careless read operands := by
  rw [Careless, not_not]
  constructor
  · intro hall
    have hf := hall _ rfl
    unfold one at hf
    split at hf
    next w =>
      obtain ⟨a, ha, -⟩ := Option.map_eq_some_iff.1 hf
      exact ⟨w, rfl, by rw [ha]; rfl⟩
    next => cases hf
  · rintro ⟨w, rfl, hw⟩ b hb
    obtain ⟨a, ha⟩ := Option.isSome_iff_exists.1 hw
    cases hb
    rw [one, ha, h w a ha]
    rfl

/-- A command whose first operand is checked. -/
theorem surplus_iff {e : Error} {r : Text → Except Error α} {read : Text → Option β} {g : β → α}
    (h : ∀ w ∈ operands, ∀ b, r w = .ok b ↔ (read w).map g = some b) :
    (∀ b, (match operands with
      | [] => Except.error e
      | w :: _ => r w) = .ok b → one (fun w => (read w).map g) operands = some b) ↔
      ¬ Surplus read operands := by
  match operands, h with
  | [], _ =>
    refine iff_of_true (fun b hb => by cases hb) ?_
    rintro ⟨w, v, more, hcons, -⟩
    cases hcons
  | [w], h =>
    refine iff_of_true (fun b hb => (h w List.mem_cons_self b).1 hb) ?_
    rintro ⟨w, v, more, hcons, -⟩
    cases hcons
  | w :: v :: more, h =>
    have hw := h w List.mem_cons_self
    constructor
    · rintro hall ⟨w', v', more', hcons, hread⟩
      cases hcons
      obtain ⟨a, ha⟩ := Option.isSome_iff_exists.1 hread
      have hone := hall (g a) ((hw (g a)).2 (by rw [ha]; rfl))
      cases hone
    · intro hnot b hb
      obtain ⟨a, ha, -⟩ := Option.map_eq_some_iff.1 ((hw b).1 hb)
      exact absurd ⟨w, v, more, rfl, by rw [ha]; rfl⟩ hnot

end Readers

/-! ### Commands -/

/-- The mark of a step is checked when there is one. -/
theorem mark_iff {operands : List Text} :
    (∀ b, (match parseBelow (2 ^ 32) (operands.headD "0".toList) with
      | none => .error (.config "bad mark")
      | some n => .ok (.Mark n) : Except Error Builtin) = .ok b →
        one (fun w => (number w).map .Mark) operands = some b) ↔
      ¬ (operands = [] ∨ Surplus number operands) := by
  cases operands with
  | nil =>
    refine iff_of_false (fun hall => ?_) (by simp)
    have hzero := hall (.Mark 0) (by decide +kernel)
    cases hzero
  | cons w ws =>
    rw [or_iff_right (List.cons_ne_nil w ws)]
    refine @surplus_iff _ _ (w :: ws) (.config "bad mark") (fun w =>
      match parseBelow (2 ^ 32) w with
      | none => .error (.config "bad mark")
      | some n => .ok (.Mark n)) number Builtin.Mark fun w _ b => ?_
    unfold number
    cases parseBelow (2 ^ 32) w <;> simp

/-- A command is what its words say unless words are left or replaced. -/
theorem command_iff (s : Text) :
    (∀ b, Builtin.parse s = .ok b → command (words (trim s)) = some b) ↔
      ¬ commandMisread (words (trim s)) := by
  have hwhite : ∀ w ∈ (words (trim s)).tail, ∀ c ∈ w, isWhitespace c = false :=
    fun w hw => not_white_of_mem_words (List.mem_of_mem_tail hw)
  unfold Builtin.parse command commandMisread
  dsimp only
  generalize String.ofList ((words (trim s)).headD []) = head
  generalize (words (trim s)).tail = operands at hwhite ⊢
  split
  case h_1 => exact alone_iff _
  case h_2 => exact alone_iff _
  case h_3 => exact alone_iff _
  case h_4 => exact alone_iff _
  case h_5 => exact alone_iff _
  case h_6 => exact alone_iff _
  case h_7 =>
    refine careless_iff (f := fun ops => Builtin.Reject (rcodeFromStr (ops.headD "REFUSED".toList)))
      fun w c hc => ?_
    rw [List.headD_cons, rcodeFromStr_eq, hc, Option.getD_some]
  case h_8 =>
    refine surplus_iff (r := fun w => (parseTtlRange w).map fun (low, high) => Builtin.Ttl low high)
      fun w hw b => ?_
    exact map_ok_iff (fun r => parseTtlRange_eq_ok (hwhite w hw)) _ b
  case h_9 => exact mark_iff
  case h_10 =>
    exact @surplus_iff _ _ operands _ (fun w => .ok (Builtin.Goto (tag w)))
      (fun w => some (tag w)) Builtin.Goto fun w _ b => by simp
  case h_11 =>
    exact @surplus_iff _ _ operands _ (fun w => .ok (Builtin.Goto (tag w)))
      (fun w => some (tag w)) Builtin.Goto fun w _ b => by simp
  case h_12 => exact alone_iff _
  case h_13 => exact alone_iff _
  case h_14 =>
    refine iff_of_true (fun b hb => by cases hb) ?_
    split
    all_goals first | contradiction | exact id

/-! ### Matchers -/

theorem mapM_eq_filterMap {read : Text → Option RecordType} {ws : List Text}
    (h : ∀ w ∈ ws, read w ≠ none) : ws.mapM read = some (ws.filterMap read) := by
  induction ws with
  | nil => rfl
  | cons w ws ih =>
    rw [List.forall_mem_cons] at h
    obtain ⟨t, ht⟩ := Option.ne_none_iff_exists'.1 h.1
    simp [ht, ih h.2]

theorem mapM_eq_none {read : Text → Option RecordType} {ws : List Text} {w : Text} (hw : w ∈ ws)
    (h : read w = none) : ws.mapM read = none := by
  induction ws with
  | nil => cases hw
  | cons v ws ih =>
    rcases List.mem_cons.1 hw with rfl | hw
    · simp [h]
    · cases hv : read v <;> simp [hv, ih hw]

/-- Words that are no types are left out of a list of types. -/
theorem types_iff (operands : List Text) :
    (∀ m, (Except.ok (.Qtype (operands.filterMap (qtypeFromStr sets.recordType))) :
      Except Error Matcher) = .ok m → (types sets operands).map .Qtype = some m) ↔
      ¬ (operands = [] ∨ ∃ w ∈ operands, qtypeFromStr sets.recordType w = none) := by
  unfold types
  split_ifs with hnil
  · exact iff_of_false (fun hall => by cases hall _ rfl) fun hnot => hnot (.inl hnil)
  · rw [or_iff_right hnil]
    by_cases h : ∃ w ∈ operands, qtypeFromStr sets.recordType w = none
    · obtain ⟨w, hw, hnone⟩ := h
      rw [mapM_eq_none hw hnone]
      exact iff_of_false (fun hall => by cases hall _ rfl) fun hnot => hnot ⟨w, hw, hnone⟩
    · have hsome : ∀ w ∈ operands, qtypeFromStr sets.recordType w ≠ none :=
        fun w hw hnone => h ⟨w, hw, hnone⟩
      rw [mapM_eq_filterMap hsome]
      refine iff_of_true (fun m hm => ?_) h
      cases hm
      rfl

/-- The words after the tag of a set are left. -/
theorem needs_iff {α : Type} (find : Tag → Option α) (missing : String) (g : α → Matcher)
    (operands : List Text) :
    (∀ m, (Matcher.needs find missing operands).map g = .ok m →
      one (fun w => (find (tag w)).map g) operands = some m) ↔
      ¬ Surplus (fun w => find (tag w)) operands := by
  have hshape : (Matcher.needs find missing operands).map g = match operands with
      | [] => .error (.config missing)
      | w :: _ => (Matcher.needs find missing [w]).map g := by
    cases operands <;> rfl
  rw [hshape]
  refine surplus_iff fun w _ b => map_ok_iff (fun r => ?_) g b
  simp only [Matcher.needs, tag]
  cases find (String.ofList (trimStart (· == '$') w)) <;> simp

/-- A matcher without its negations is what its words say unless words are left or replaced. -/
theorem matcher_iff (ws : List Text) :
    (∀ m, Matcher.bindHead sets ws = .ok m → matcher sets ws = some m) ↔
      ¬ matcherMisread sets ws := by
  unfold Matcher.bindHead matcher matcherMisread
  generalize String.ofList (ws.headD []) = head
  generalize ws.tail = operands
  split
  case h_1 => exact alone_iff _
  case h_2 => exact alone_iff _
  case h_3 => exact needs_iff _ _ _ _
  case h_4 => exact types_iff sets _
  case h_5 => exact needs_iff _ _ _ _
  case h_6 => exact needs_iff _ _ _ _
  case h_7 =>
    refine careless_iff
      (f := fun ops => Matcher.Rcode (rcodeToU16 (rcodeFromStr (ops.headD "NOERROR".toList))))
      (g := fun c => .Rcode (rcodeToU16 c)) fun w c hc => ?_
    rw [List.headD_cons, rcodeFromStr_eq, hc, Option.getD_some]
  case h_8 =>
    refine @careless_iff _ _ operands
      (fun ops => Matcher.Mark ((parseBelow (2 ^ 32) (ops.headD "0".toList)).getD 0)) number
      Matcher.Mark fun w n hn => ?_
    rw [number] at hn
    rw [List.headD_cons, hn, Option.getD_some]
  case h_9 => exact alone_iff _
  case h_10 => exact alone_iff _
  case h_11 =>
    refine iff_of_true (fun b hb => by cases hb) ?_
    split
    all_goals first | contradiction | exact id

/-! ### Negations -/

theorem negations_eq {t rest : Text} {n : ℕ} (h : Bangs t n rest) :
    Matcher.negations t = (decide (n % 2 = 1), rest) := by
  induction h with
  | @none t h =>
    unfold Matcher.negations
    split
    · exact absurd rfl h
    · rfl
  | @bang rest t n _ ih =>
    rw [Matcher.negations, ih]
    have hparity : (!decide (n % 2 = 1)) = decide ((n + 1) % 2 = 1) := by
      rw [← decide_not]
      exact decide_eq_decide.2 (by omega)
    simp only [hparity]

theorem exists_bangs (t : Text) : ∃ n rest, Bangs t n rest := by
  induction t using Matcher.negations.induct with
  | case1 rest negate expr _ ih =>
    obtain ⟨n, t, h⟩ := ih
    exact ⟨n + 1, t, .bang h⟩
  | case2 t hne =>
    refine ⟨0, t, .none fun hhead => ?_⟩
    obtain ⟨rest, rfl⟩ := List.head?_eq_some_iff.1 hhead
    exact hne rest rfl

/-- A matcher is read as what stands after the exclamation marks, negated by their parity. -/
theorem bind_eq_ok {expr rest : Text} {n : ℕ} (h : Bangs (trim expr) n rest) {m : Matcher} :
    Matcher.bind sets expr = .ok m ↔ ∃ inner, Matcher.bindHead sets (words rest) = .ok inner ∧
      m = if n % 2 = 1 then .Neg inner else inner := by
  rw [Matcher.bind, negations_eq h]
  cases hhead : Matcher.bindHead sets (words rest) with
  | error e => simp [hhead, Except.map]
  | ok inner => simp [hhead, Except.map, eq_comm (a := m)]

/-- A matcher, negations included, is what its text says unless words are left or replaced. -/
theorem says_iff (expr : Text) :
    (∀ m, Matcher.bind sets expr = .ok m → Says sets expr m) ↔
      ¬ matcherMisread sets (words (Matcher.negations (trim expr)).2) := by
  obtain ⟨n, rest, h⟩ := exists_bangs (trim expr)
  rw [negations_eq h, ← matcher_iff sets (words rest)]
  constructor
  · intro hall inner hinner
    obtain ⟨n', rest', inner', h', hmeans, heq⟩ := hall _ ((bind_eq_ok sets h).2 ⟨inner, hinner, rfl⟩)
    have hsame := (negations_eq h).symm.trans (negations_eq h')
    rw [Prod.mk.injEq, decide_eq_decide] at hsame
    obtain ⟨hparity, rfl⟩ := hsame
    have hinner' : inner = inner' := by
      by_cases hodd : n % 2 = 1
      · rwa [if_pos hodd, if_pos (hparity.1 hodd), Matcher.Neg.injEq] at heq
      · rwa [if_neg hodd, if_neg (mt hparity.2 hodd)] at heq
    rw [hinner', hmeans]
  · intro hall m hm
    obtain ⟨inner, hinner, rfl⟩ := (bind_eq_ok sets h).1 hm
    exact ⟨n, rest, inner, h, hall inner hinner, rfl⟩

/-! ### Steps -/

/-- What is accepted as a command or as a matcher is what the text says, and a mark is the
same one as both. -/
structure Honest (s : Text) : Prop where
  command : ∀ b, Builtin.parse s = .ok b → command (words (trim s)) = some b
  matcher : ∀ m, Matcher.bind sets s = .ok m → Says sets s m
  mark : (words (trim s)).head? = some "mark".toList →
    ∀ n, Builtin.parse s = .ok (.Mark n) ↔ Matcher.bind sets s = .ok (.Mark n)

theorem bangs_mark {s : Text} (h : (words (trim s)).head? = some "mark".toList) :
    Bangs (trim s) 0 (trim s) := by
  refine .none fun hbang => ?_
  obtain ⟨rest, hrest⟩ := List.head?_eq_some_iff.1 hbang
  obtain ⟨w, ws, hwords⟩ := words_cons (c := '!') (by decide) rest
  rw [hrest, hwords, List.head?_cons, Option.some.injEq] at h
  cases h

/-- Read without defaults, a mark is the same as a command and as a matcher. -/
theorem mark_agree {s : Text} (hm : ¬ matcherMisread sets (words (trim s)))
    (h : (words (trim s)).head? = some "mark".toList) (n : U32) :
    Builtin.parse s = .ok (.Mark n) ↔ Matcher.bind sets s = .ok (.Mark n) := by
  obtain ⟨operands, hwords⟩ := List.head?_eq_some_iff.1 h
  unfold matcherMisread at hm
  rw [hwords, List.headD_cons, String.ofList_toList, List.tail_cons] at hm
  obtain ⟨w, rfl, hw⟩ := not_not.1 (show ¬ Careless number operands from hm)
  obtain ⟨k, hk⟩ := Option.isSome_iff_exists.1 hw
  rw [number] at hk
  have hparse : Builtin.parse s = .ok (.Mark k) := by
    unfold Builtin.parse
    simp only [hwords, List.headD_cons, String.ofList_toList, List.tail_cons]
    change (match parseBelow (2 ^ 32) w with
      | none => _
      | some n => _) = _
    rw [hk]
  have hhead : Matcher.bindHead sets (words (trim s)) = .ok (.Mark k) := by
    unfold Matcher.bindHead
    simp only [hwords, List.headD_cons, String.ofList_toList, List.tail_cons]
    rw [hk, Option.getD_some]
  rw [bind_eq_ok sets (bangs_mark h), hparse, hhead]
  simp [eq_comm]

/-- Steps mean what they say exactly when no word is left and none replaced. -/
theorem honest_iff (s : Text) : Honest sets s ↔ ¬ commandMisread (words (trim s)) ∧
    ¬ matcherMisread sets (words (Matcher.negations (trim s)).2) := by
  constructor
  · intro h
    exact ⟨(command_iff s).1 h.command, (says_iff sets s).1 h.matcher⟩
  · rintro ⟨hc, hm⟩
    refine ⟨(command_iff s).2 hc, (says_iff sets s).2 hm, fun h n => mark_agree sets ?_ h n⟩
    rwa [negations_eq (bangs_mark h)] at hm

/-- A matcher of a malformed mark matches queries without one. -/
theorem mark_misread : ¬ Honest ⟨fun _ => none, fun _ => none, fun _ => none⟩ "mark x".toList := by
  intro h
  have hwords : words (trim "mark x".toList) = ["mark".toList, "x".toList] := by decide +kernel
  have hhead : (words (trim "mark x".toList)).head? = some "mark".toList := by rw [hwords]; rfl
  have hbind := (bind_eq_ok ⟨fun _ => none, fun _ => none, fun _ => none⟩ (bangs_mark hhead)).2
    ⟨.Mark 0, by rw [hwords]; rfl, rfl⟩
  have hparse := (h.mark hhead 0).2 hbind
  have hbad : Builtin.parse "mark x".toList = .error (.config "bad mark") := by
    unfold Builtin.parse
    rw [hwords]
    rfl
  rw [hbad] at hparse
  cases hparse

end Expression

end FerrumDns
