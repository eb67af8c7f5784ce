import SheetPackages.Proofs.Registry.Directory

/-!
# Requests that are made again

A site is asked for a path until a response is decisive: the status 404, or a success whose body can
be read. Whatever else comes back is a network fault, after which the request is made again, as
often as the site allows; the last fault is the one that is reported. The requests for an index are
those for its bytes, whatever they turn out to be. How long is waited between two requests is not
described.
-/

namespace SheetPackages

variable {w : World} {address : String}

/-! ## Worlds in which requests have been made -/

/-- The web after further requests for an address. -/
def Web.requested (w : Web) (address : String) (n : Nat) : Web :=
  { w with asked := List.replicate n address ++ w.asked }

/-- The reply to the request for an address that follows on `n` further ones. -/
def Web.reply (w : Web) (address : String) (n : Nat) : Reply :=
  (w.requested address n).next address

/-- Any replies, as many as wanted, are those of some web. -/
theorem Web.exists_reply_eq (script : Nat → Reply) (address : String) (n : Nat) :
    ∃ w : Web, ∀ i < n, w.reply address i = script i := by
  let replies := (List.range n).map fun i ↦ (address, script i)
  have hreplies : (replies.filter (·.1 = address)).map Prod.snd = (List.range n).map script := by
    rw [List.filter_eq_self.mpr, List.map_map]
    · rfl
    · intro entry hentry
      obtain ⟨i, -, rfl⟩ := List.mem_map.mp hentry
      exact decide_eq_true rfl
  refine ⟨⟨replies, .silence, []⟩, fun i hi ↦ ?_⟩
  have hcount : (List.replicate i address ++ []).count address = i := by
    rw [List.append_nil, List.count_replicate_self]
  simp only [reply, requested, next, repliesTo, hreplies, hcount]
  rw [List.getElem?_map, List.getElem?_range hi]
  rfl

/-- The world after further requests for an address. -/
def World.requested (w : World) (address : String) (n : Nat) : World :=
  { w with web := w.web.requested address n }

theorem World.requested_requested (w : World) (address : String) (n m : Nat) :
    (w.requested address n).requested address m = w.requested address (m + n) := by
  simp only [requested, Web.requested, ← List.append_assoc, List.replicate_append_replicate]

theorem World.reply_requested (w : World) (address : String) (n i : Nat) :
    (w.requested address n).web.reply address i = w.web.reply address (i + n) :=
  congrArg (fun v : World ↦ v.web.next address) (w.requested_requested address n i)

/-- The world with a cache of indexes written to its file. -/
def World.saving (w : World) (c : IndexCache) : World :=
  { w with files := match c.path with
      | none => w.files
      | some path => c.saveTo path w.files }

namespace Registry

/-! ## Responses -/

/-- What a request comes to. -/
inductive Response where
  | silence
  /-- A success without its body. -/
  | unreadable
  /-- The status 404. -/
  | missing
  | content (data : ByteArray)
  /-- Any other status. -/
  | refusal (status : Nat)

namespace Response

def ofReply : Reply → Response
  | .silence => .silence
  | .broken status =>
    if status = 404 then .missing else if isSuccess status then .unreadable else .refusal status
  | .full status body =>
    if status = 404 then .missing else if isSuccess status then .content body else .refusal status

/-- Whether no further request is made. -/
def isDecisive : Response → Bool
  | .missing | .content _ => true
  | _ => false

/-- What a request for an address ends with. -/
def result (address : String) : Response → Except Fault (Option ByteArray)
  | .silence =>
    .error (.network s!"Failed to fetch {address}: {Fault.unexplained}" (some Fault.unexplained))
  | .unreadable =>
    .error (.network s!"Failed to read {address}: {Fault.unexplained}" (some Fault.unexplained))
  | .missing => .ok none
  | .content data => .ok (some data)
  | .refusal status =>
    .error (.network s!"Registry returned status {statusText status} for {address}" none)

/-- The index in a response from the address of an index. -/
def index (address : String) (r : Response) : Except Fault Index := do
  match ← r.result address with
  | none => throw (.network s!"Registry index not found at {address}" none)
  | some data => Index.ofBytes data

/-- A response that is not decisive is a network fault. -/
theorem exists_fault_of_not_isDecisive {r : Response} (h : r.isDecisive = false)
    (address : String) :
    ∃ fault, r.result address = .error fault ∧ isNetworkFault fault = true := by
  cases r with
  | silence => exact ⟨_, rfl, rfl⟩
  | unreadable => exact ⟨_, rfl, rfl⟩
  | missing => cases h
  | content data => cases h
  | refusal status => exact ⟨_, rfl, rfl⟩

theorem exists_found_of_isDecisive {r : Response} (h : r.isDecisive = true) (address : String) :
    ∃ found, r.result address = .ok found := by
  cases r with
  | missing => exact ⟨none, rfl⟩
  | content data => exact ⟨some data, rfl⟩
  | silence | unreadable | refusal => cases h

end Response

/-- What the request for an address comes to that follows on `n` further ones. -/
def responses (w : World) (address : String) (n : Nat) : Response :=
  .ofReply (w.web.reply address n)

/-- Of the first response and `retries` more, that at `k` is the first decisive one, or the last one
if none is decisive. -/
structure Decided (response : Nat → Response) (retries k : Nat) : Prop where
  le : k ≤ retries
  before : ∀ i < k, (response i).isDecisive = false
  last : (response k).isDecisive = true ∨ k = retries

namespace Decided

variable {response : Nat → Response} {retries k l : Nat}

theorem succ (h : Decided (fun i ↦ response (i + 1)) retries k)
    (hfirst : (response 0).isDecisive = false) : Decided response (retries + 1) (k + 1) where
  le := Nat.succ_le_succ h.le
  before
    | 0, _ => hfirst
    | i + 1, hi => h.before i (Nat.lt_of_succ_lt_succ hi)
  last := h.last.imp_right (congrArg (· + 1))

theorem zero_of_isDecisive (h : (response 0).isDecisive = true) : Decided response retries 0 :=
  ⟨Nat.zero_le _, fun _ hi ↦ absurd hi (Nat.not_lt_zero _), .inl h⟩

theorem le_of_decided (hk : Decided response retries k) (hl : Decided response retries l) :
    k ≤ l := by
  by_contra hlt
  have hopen := hk.before l (Nat.lt_of_not_le hlt)
  rcases hl.last with hdecisive | rfl
  · exact nomatch hopen.symm.trans hdecisive
  · exact hlt hk.le

/-- Only one response decides. -/
theorem unique (hk : Decided response retries k) (hl : Decided response retries l) : k = l :=
  Nat.le_antisymm (hk.le_of_decided hl) (hl.le_of_decided hk)

end Decided

/-! ## One request -/

theorem runIn_request (address : String) (w : World) :
    (request address).runIn w =
      ((responses w address 0).result address, w.requested address 1) := by
  have hget : (get : Action World).runIn w = (.ok w, w) := rfl
  have hmodify (f : World → World) (v : World) :
      (modify f : Action Unit).runIn v = (.ok (), f v) := rfl
  simp only [request, Action.runIn_bind, hget, hmodify, Web.ask]
  change _ = ((Response.ofReply (w.web.next address)).result address, w.requested address 1)
  cases w.web.next address with
  | silence => rfl
  | broken status =>
    simp only [Response.ofReply]
    split
    · rfl
    · split <;> rfl
  | full status body =>
    simp only [Response.ofReply]
    split
    · rfl
    · split <;> rfl

variable {α : Type} {t : Action α} {v after : World}

theorem runIn_tryCatch_of_ok {a : α} (h : t.runIn v = (.ok a, after))
    (handle : Fault → Action α) : (tryCatch t handle).runIn v = (.ok a, after) := by
  simp only [Action.runIn, tryCatch, tryCatchThe, MonadExceptOf.tryCatch, ExceptT.tryCatch,
    ExceptT.run_mk, StateT.run_bind] at h ⊢
  rw [show StateT.run t v = (.ok a, after) from h]
  rfl

theorem runIn_tryCatch_of_error {fault : Fault} (h : t.runIn v = (.error fault, after))
    (handle : Fault → Action α) :
    (tryCatch t handle).runIn v = (handle fault).runIn after := by
  simp only [Action.runIn, tryCatch, tryCatchThe, MonadExceptOf.tryCatch, ExceptT.tryCatch,
    ExceptT.run_mk, StateT.run_bind] at h ⊢
  rw [show StateT.run t v = (.error fault, after) from h]
  rfl

/-! ## Requests until one is decisive -/

theorem runIn_retrying_request (address : String) (retries : Nat) (w : World) :
    ∃ k, Decided (responses w address) retries k ∧
      (retrying (request address) retries).runIn w =
        ((responses w address k).result address, w.requested address (k + 1)) := by
  induction retries generalizing w with
  | zero =>
    exact ⟨0, ⟨le_rfl, fun _ hi ↦ absurd hi (Nat.not_lt_zero _), .inr rfl⟩, runIn_request address w⟩
  | succ retries ih =>
    have hfirst := runIn_request address w
    cases hdecisive : (responses w address 0).isDecisive with
    | true =>
      obtain ⟨found, hfound⟩ := Response.exists_found_of_isDecisive hdecisive address
      rw [hfound] at hfirst
      refine ⟨0, .zero_of_isDecisive hdecisive, ?_⟩
      rw [hfound]
      exact runIn_tryCatch_of_ok hfirst _
    | false =>
      -- The later responses are those of the world after the first request.
      obtain ⟨fault, hfault, hnetwork⟩ :=
        Response.exists_fault_of_not_isDecisive hdecisive address
      obtain ⟨k, hk, hrun⟩ := ih (w.requested address 1)
      have hlater : responses (w.requested address 1) address =
          fun i ↦ responses w address (i + 1) :=
        funext fun i ↦ congrArg Response.ofReply (w.reply_requested address 1 i)
      rw [hlater] at hk hrun
      rw [hfault] at hfirst
      refine ⟨k + 1, hk.succ hdecisive, ?_⟩
      rw [retrying, runIn_tryCatch_of_error hfirst, if_pos hnetwork, hrun, w.requested_requested]

theorem run_insert (index : Index) (url : String) (w : World) (c : IndexCache) :
    (Cached.insert url index).run.run (w, c) =
      (.ok (), w.saving (c.insert url index w.now), c.insert url index w.now) := by
  let inserted := c.insert url index w.now
  change ((inserted.save.runIn w).1, (inserted.save.runIn w).2, inserted) = _
  rw [IndexCache.save, World.saving]
  cases inserted.path <;> rfl

/-- An index is fetched with the requests for its bytes, and cached if there is one in them. -/
theorem run_fetchIndex (s : Site) (w : World) (c : IndexCache) :
    ∃ k, Decided (responses w (addressOf s "index.json")) s.retries k ∧
      (fetchIndex s).run.run (w, c) =
        match (responses w (addressOf s "index.json") k).index (addressOf s "index.json") with
        | .ok index =>
          (.ok index,
            (w.requested (addressOf s "index.json") (k + 1)).saving (c.insert s.base index w.now),
            c.insert s.base index w.now)
        | .error fault => (.error fault, w.requested (addressOf s "index.json") (k + 1), c) := by
  obtain ⟨k, hk, hrun⟩ := runIn_retrying_request (addressOf s "index.json") s.retries w
  refine ⟨k, hk, ?_⟩
  rw [fetchIndex]
  simp only [get?]
  cases hresult : (responses w (addressOf s "index.json") k).result (addressOf s "index.json") with
  | error fault =>
    rw [hresult] at hrun
    rw [run_bind_of_error (Supply.run_ofAction hrun c), Response.index, hresult]
    rfl
  | ok found =>
    rw [hresult] at hrun
    rw [run_bind_of_ok (Supply.run_ofAction hrun c), Response.index, hresult]
    cases found with
    | none => rfl
    | some data =>
      change ((liftM (Index.ofBytes data) : Cached Index) >>= fun index ↦
        Cached.insert s.base index >>= fun _ ↦ pure index).run.run _ = match Index.ofBytes data with
          | .ok index => _
          | .error fault => _
      cases Index.ofBytes data with
      | error fault => rfl
      | ok index =>
        change (Cached.insert s.base index >>= fun _ ↦ pure index).run.run _ = _
        rw [run_bind_of_ok (run_insert index s.base _ c)]
        rfl

/-- Requests stop at the first decisive response. Exactly those up to it are made, or all that the
site allows if there is none, and the last of them says what comes of it. An index costs no more
requests than its bytes: if there is none in them, that is the result, and nothing is cached. -/
theorem requests_stop_at_first_decisive (s : Site) (path : String) (w : World) (c : IndexCache) :
    (∃ k, Decided (responses w (addressOf s path)) s.retries k ∧
      (get? s path).runIn w =
        ((responses w (addressOf s path) k).result (addressOf s path),
          w.requested (addressOf s path) (k + 1))) ∧
    ∃ k, Decided (responses w (addressOf s "index.json")) s.retries k ∧
      (fetchIndex s).run.run (w, c) =
        match (responses w (addressOf s "index.json") k).index (addressOf s "index.json") with
        | .ok index =>
          (.ok index,
            (w.requested (addressOf s "index.json") (k + 1)).saving (c.insert s.base index w.now),
            c.insert s.base index w.now)
        | .error fault => (.error fault, w.requested (addressOf s "index.json") (k + 1), c) :=
  ⟨runIn_retrying_request (addressOf s path) s.retries w, run_fetchIndex s w c⟩

end Registry

end SheetPackages
