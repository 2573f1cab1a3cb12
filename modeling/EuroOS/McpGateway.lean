import EuroOS.AgentCaps
import EuroOS.Json
import EuroOS.CallMachine

/-!
# The tool gateway of agents

Agents call tools with JSON-RPC requests.  The gateway looks the tool up, checks
the capabilities of the caller and, for elevated capabilities, uses up a grant
that was given for one call.  The backend that executes tools is a parameter of
each call.
-/

namespace EuroOS.Agent

def idKey : Str := "id".toList
def methodKey : Str := "method".toList
def paramsKey : Str := "params".toList
def nameKey : Str := "name".toList
def argumentsKey : Str := "arguments".toList
def toolsList : Str := "tools/list".toList
def toolsCall : Str := "tools/call".toList

structure ToolDef where
  name : Str
  description : Str
  requiredCap : UInt64

def builtinTools : List ToolDef :=
  [⟨"fs_read".toList, "Read a file from EuroFS within the agent sandbox".toList, Cap.fsRead⟩,
    ⟨"fs_write".toList, "Write data to EuroFS within the agent sandbox".toList, Cap.fsWrite⟩,
    ⟨"net_get".toList, "HTTP/HTTPS GET via EuroNet + EuroTLS".toList, Cap.netGet⟩,
    ⟨"net_post".toList, "HTTP/HTTPS POST via EuroNet + EuroTLS".toList, Cap.netPost⟩,
    ⟨"vault_get".toList, "Read a secret from EuroVault (value never logged)".toList, Cap.vaultRead⟩,
    ⟨"display_notify".toList, "Send a notification to EuroDisplay".toList, Cap.display⟩,
    ⟨"calendar_read".toList, "Read calendar events (EuroIDM)".toList, Cap.calendar⟩,
    ⟨"mic_record".toList, "Record audio via the microphone".toList, Cap.mic⟩,
    ⟨"agent_spawn".toList, "Spawn a sub-agent for delegation".toList, Cap.agentSpawn⟩,
    ⟨"exec".toList, "Run a command (highly privileged)".toList, Cap.exec⟩]

abbrev ToolBackend := Str → Json → Except Str Json

structure AuditRecord where
  agent : Str
  tool : Str
  allowed : Bool
  succeeded : Bool
  reason : Str
  deriving DecidableEq

structure McpGateway where
  tools : List ToolDef
  audit : List AuditRecord
  /-- The elevated capabilities that are granted for one upcoming call. -/
  jitGrants : UInt64

def resultResponse (id result : Json) : Str :=
  (Json.obj [("jsonrpc".toList, .str "2.0".toList), ("id".toList, id), ("result".toList, result)]).render

def errorResponse (id : Json) (code : Str) (message : Str) : Str :=
  (Json.obj [("jsonrpc".toList, .str "2.0".toList), ("id".toList, id),
    ("error".toList, .obj [("code".toList, .num code), ("message".toList, .str message)])]).render

/-- The gateway after a request, the response, and the tool that the backend executed. -/
structure Handled where
  gateway : McpGateway
  response : Str
  executed : Option (Str × Json)

namespace McpGateway

def new : McpGateway := ⟨builtinTools, [], 0⟩

def grantJit (g : McpGateway) (cap : UInt64) : McpGateway :=
  { g with jitGrants := g.jitGrants ||| (cap &&& Cap.elevated) }

def find (g : McpGateway) (name : Str) : Option ToolDef := g.tools.find? (·.name = name)

def listFor (g : McpGateway) (caps : AgentCaps) : Json :=
  .obj [("tools".toList, .arr ((g.tools.filter (caps.contains ·.requiredCap)).map fun t =>
    .obj [("name".toList, .str t.name), ("description".toList, .str t.description),
      ("required_cap".toList, .str (Cap.toName t.requiredCap))]))]

def record (g : McpGateway) (r : AuditRecord) : McpGateway := { g with audit := g.audit ++ [r] }

def refuse (g : McpGateway) (agent name reason : Str) (id : Json) (code message : Str) : Handled :=
  ⟨g.record ⟨agent, name, false, false, reason⟩, errorResponse id code message, none⟩

def execute (g : McpGateway) (agent name : Str) (input id : Json) (backend : ToolBackend) : Handled :=
  match backend name input with
  | .ok result =>
    ⟨g.record ⟨agent, name, true, true, "ok".toList⟩, resultResponse id result, some (name, input)⟩
  | .error _ =>
    ⟨g.record ⟨agent, name, true, false, "tool_failed".toList⟩,
      errorResponse id "-32003".toList "tool execution failed".toList, some (name, input)⟩

def handleCall (g : McpGateway) (agent : Str) (caps : AgentCaps) (id req : Json)
    (backend : ToolBackend) : Handled :=
  match req.get paramsKey with
  | none => ⟨g, errorResponse id "-32602".toList "missing params".toList, none⟩
  | some params =>
  match (params.get nameKey).bind Json.asStr with
  | none => ⟨g, errorResponse id "-32602".toList "missing tool name".toList, none⟩
  | some name =>
  let input := (params.get argumentsKey).getD (.obj [])
  match g.find name with
  | none => g.refuse agent name "tool_not_found".toList id "-32002".toList "unknown tool".toList
  | some tool =>
  if !caps.contains tool.requiredCap then
    g.refuse agent name "insufficient_capability".toList id "-32001".toList "capability denied".toList
  else if tool.requiredCap &&& Cap.elevated ≠ 0 then
    if g.jitGrants &&& tool.requiredCap ≠ 0 then
      -- The grant is for this one action.
      { g with jitGrants := g.jitGrants &&& ~~~tool.requiredCap }.execute agent name input id backend
    else
      g.refuse agent name "needs_jit_elevation".toList id "-32004".toList
        "just-in-time elevation required".toList
  else g.execute agent name input id backend

def handle (g : McpGateway) (agent : Str) (caps : AgentCaps) (request : Str) (backend : ToolBackend) :
    Handled :=
  match Json.parse request with
  | none => ⟨g, errorResponse .null "-32700".toList "parse error".toList, none⟩
  | some req =>
  let id := (req.get idKey).getD .null
  match (req.get methodKey).bind Json.asStr with
  | none => ⟨g, errorResponse id "-32600".toList "missing method".toList, none⟩
  | some method =>
  if method = toolsList then ⟨g, resultResponse id (g.listFor caps), none⟩
  else if method = toolsCall then g.handleCall agent caps id req backend
  else ⟨g, errorResponse id "-32601".toList "unknown method".toList, none⟩

end McpGateway

/-! ## Runs -/

inductive Call
  | grantJit (cap : UInt64)
  | handle (agent : Str) (caps : AgentCaps) (request : Str) (backend : ToolBackend)

inductive Result
  | granted
  | handled (response : Str) (executed : Option (Str × Json))

def machine : CallMachine McpGateway Call Result where
  step g
    | .grantJit cap => (g.grantJit cap, .granted)
    | .handle agent caps request backend =>
      let h := g.handle agent caps request backend
      (h.gateway, .handled h.response h.executed)

def toolCall (request : Str) : Option (Str × Json) :=
  match Json.parse request with
  | none => none
  | some req =>
  if (req.get methodKey).bind Json.asStr = some toolsCall then
    (req.get paramsKey).bind fun params =>
      ((params.get nameKey).bind Json.asStr).map fun name =>
        (name, (params.get argumentsKey).getD (.obj []))
  else none

inductive Refused (g : McpGateway) (caps : AgentCaps) (name : Str) : Str → Prop
  | unknown (h : g.find name = none) : Refused g caps name "tool_not_found".toList
  | capability {tool : ToolDef} (h : g.find name = some tool)
      (hcap : caps.contains tool.requiredCap = false) :
      Refused g caps name "insufficient_capability".toList
  | grant {tool : ToolDef} (h : g.find name = some tool)
      (helevated : tool.requiredCap &&& Cap.elevated ≠ 0)
      (hgrant : g.jitGrants &&& tool.requiredCap = 0) :
      Refused g caps name "needs_jit_elevation".toList

/-- A tool is authorized: the caller has the capability and, for an elevated one, there is a grant,
which the call uses up. -/
structure Authorized (g : McpGateway) (caps : AgentCaps) (tool : ToolDef) (after : UInt64) : Prop where
  contains : caps.contains tool.requiredCap = true
  grant : tool.requiredCap &&& Cap.elevated ≠ 0 →
    g.jitGrants &&& tool.requiredCap ≠ 0 ∧ after = g.jitGrants &&& ~~~tool.requiredCap
  keep : tool.requiredCap &&& Cap.elevated = 0 → after = g.jitGrants

/-- What a request can do: nothing, a recorded refusal, or a recorded execution. -/
inductive Effect (g : McpGateway) (agent : Str) (caps : AgentCaps) (request : Str) (h : Handled) : Prop
  | none (hcall : toolCall request = none) (hgateway : h.gateway = g)
      (hexecuted : h.executed = none) : Effect g agent caps request h
  | refused {name reason : Str} {input : Json}
      (hcall : toolCall request = some (name, input)) (hrefused : Refused g caps name reason)
      (hgateway : h.gateway = g.record ⟨agent, name, false, false, reason⟩)
      (hexecuted : h.executed = none) : Effect g agent caps request h
  | executed {name reason : Str} {input : Json} {tool : ToolDef} {after : UInt64}
      {succeeded : Bool} (hcall : toolCall request = some (name, input))
      (htool : g.find name = some tool) (hauthorized : Authorized g caps tool after)
      (hgateway : h.gateway =
        { g with jitGrants := after }.record ⟨agent, name, true, succeeded, reason⟩)
      (hexecuted : h.executed = some (name, input)) : Effect g agent caps request h

namespace McpGateway

theorem execute_effect (id : Json) (backend : ToolBackend)
    (hcall : toolCall request = some (name, input)) (htool : g.find name = some tool)
    (hauthorized : Authorized g caps tool after) :
    Effect g agent caps request ({ g with jitGrants := after }.execute agent name input id backend) := by
  unfold execute
  split
  · exact .executed hcall htool hauthorized rfl rfl
  · exact .executed hcall htool hauthorized rfl rfl

theorem handle_effect (g : McpGateway) (agent : Str) (caps : AgentCaps) (request : Str)
    (backend : ToolBackend) : Effect g agent caps request (g.handle agent caps request backend) := by
  unfold handle
  cases hparse : Json.parse request with
  | none => exact .none (by simp [toolCall, hparse]) rfl rfl
  | some req =>
  dsimp only
  cases hmethod : (req.get methodKey).bind Json.asStr with
  | none => exact .none (by simp [toolCall, hparse, hmethod]) rfl rfl
  | some method =>
  dsimp only
  split_ifs with hlist hcalls
  · have hother : method ≠ toolsCall := by
      rw [hlist]
      decide +kernel
    exact .none (by simp only [toolCall, hparse, hmethod, Option.some.injEq, if_neg hother]) rfl rfl
  · unfold handleCall
    have htool : toolCall request = (req.get paramsKey).bind fun params =>
        ((params.get nameKey).bind Json.asStr).map fun name =>
          (name, (params.get argumentsKey).getD (.obj [])) := by
      simp [toolCall, hparse, hmethod, hcalls]
    cases hparams : req.get paramsKey with
    | none => exact .none (by rw [htool, hparams]; rfl) rfl rfl
    | some params =>
    dsimp only
    cases hname : (params.get nameKey).bind Json.asStr with
    | none =>
      refine .none ?_ rfl rfl
      rw [htool, hparams]
      simp only [Option.bind_some, hname, Option.map_none]
    | some name =>
    have hcall : toolCall request = some (name, (params.get argumentsKey).getD (.obj [])) := by
      rw [htool, hparams]
      simp only [Option.bind_some, hname, Option.map_some]
    dsimp only
    cases hfind : g.find name with
    | none => exact .refused hcall (.unknown hfind) rfl rfl
    | some tool =>
    dsimp only
    split_ifs with hcap helevated hgrant
    · exact .refused hcall (.capability hfind (by simpa using hcap)) rfl rfl
    · exact execute_effect _ _ hcall hfind
        ⟨by simpa using hcap, fun _ => ⟨hgrant, rfl⟩, fun hzero => absurd hzero helevated⟩
    · exact .refused hcall (.grant hfind helevated (by simpa using hgrant)) rfl rfl
    · have hauthorized : Authorized g caps tool g.jitGrants :=
        ⟨by simpa using hcap, fun hne => absurd hne helevated, fun _ => rfl⟩
      exact execute_effect _ _ hcall hfind hauthorized
  · refine .none ?_ rfl rfl
    simp only [toolCall, hparse, hmethod, Option.some.injEq, if_neg hcalls]

end McpGateway

/-! ## Grants and executions -/

def needs (c : UInt64) : Result → Bool
  | .handled _ (some (name, _)) =>
    (builtinTools.find? (·.name = name)).any (·.requiredCap &&& c ≠ 0)
  | _ => false

def includes (c : UInt64) : Call → Bool
  | .grantJit cap => cap &&& c ≠ 0
  | _ => false

def McpGateway.left (g : McpGateway) (c : UInt64) : Nat := if g.jitGrants &&& c ≠ 0 then 1 else 0

@[simp] theorem left_record (g : McpGateway) (r : AuditRecord) (c : UInt64) :
    (g.record r).left c = g.left c := rfl

theorem requiredCap_eq_of_elevated (htool : tool ∈ builtinTools) (hc : c ∈ Cap.elevatedCaps)
    (hneeds : tool.requiredCap &&& c ≠ 0) : tool.requiredCap = c ∧ c &&& Cap.elevated ≠ 0 := by
  have hcaps : ∀ e ∈ builtinTools.map (·.requiredCap) ×ˢ Cap.elevatedCaps, e.1 &&& e.2 ≠ 0 →
      e.1 = e.2 ∧ e.2 &&& Cap.elevated ≠ 0 := forall_mem_of_all (by decide +kernel)
  exact hcaps (_, c) (List.mem_product.mpr ⟨List.mem_map_of_mem htool, hc⟩) hneeds

theorem left_grantJit (g : McpGateway) (cap c : UInt64) :
    (g.grantJit cap).left c ≤ g.left c + if cap &&& c ≠ 0 then 1 else 0 := by
  have hor : (g.grantJit cap).jitGrants &&& c = (g.jitGrants &&& c) ||| ((cap &&& c) &&& Cap.elevated) := by
    rw [McpGateway.grantJit, or_and_distrib, UInt64.and_assoc, UInt64.and_assoc,
      UInt64.and_comm Cap.elevated c]
  unfold McpGateway.left
  rw [hor]
  by_cases hold : g.jitGrants &&& c = 0
  · by_cases hnew : cap &&& c = 0
    · simp [hold, hnew]
    · rw [if_pos hnew]
      split_ifs <;> omega
  · rw [if_pos hold]
    split_ifs <;> omega

theorem left_of_and {g g' : McpGateway} {mask : UInt64}
    (h : g'.jitGrants = g.jitGrants &&& mask) (c : UInt64) : g'.left c ≤ g.left c := by
  have hand : g'.jitGrants &&& c = (g.jitGrants &&& c) &&& mask := by
    rw [h, UInt64.and_assoc, UInt64.and_comm mask, UInt64.and_assoc]
  unfold McpGateway.left
  rw [hand]
  by_cases hold : g.jitGrants &&& c = 0
  · simp [hold]
  · rw [if_pos hold]
    split_ifs <;> omega

theorem left_of_used {g g' : McpGateway} {c : UInt64} (hc : g.jitGrants &&& c ≠ 0)
    (h : g'.jitGrants = g.jitGrants &&& ~~~c) : g'.left c + 1 = g.left c := by
  have hzero : g'.jitGrants &&& c = 0 := by
    rw [h, UInt64.and_assoc, UInt64.not_and_self, UInt64.and_zero]
  simp [McpGateway.left, hzero, hc]

theorem left_step {g : McpGateway} (htools : g.tools = builtinTools) {c : UInt64}
    (hc : c ∈ Cap.elevatedCaps) (call : Call) :
    (machine.step g call).1.tools = builtinTools ∧
      (if needs c (machine.step g call).2 then 1 else 0) + (machine.step g call).1.left c ≤
        g.left c + if includes c call then 1 else 0 := by
  cases call with
  | grantJit cap =>
    refine ⟨htools, ?_⟩
    have hle := left_grantJit g cap c
    simpa [machine, needs, includes] using hle
  | handle agent caps request backend =>
    change (g.handle agent caps request backend).gateway.tools = builtinTools ∧
      (if needs c (.handled (g.handle agent caps request backend).response
        (g.handle agent caps request backend).executed) then 1 else 0) +
        (g.handle agent caps request backend).gateway.left c ≤ g.left c + 0
    cases g.handle_effect agent caps request backend with
    | none hcall hgateway hexecuted => simp [needs, hgateway, hexecuted, htools]
    | refused hcall hrefused hgateway hexecuted =>
      rw [hgateway, hexecuted]
      exact ⟨htools, by simp [needs]⟩
    | @executed name reason input tool after succeeded hcall htool hauthorized hgateway hexecuted =>
      rw [hgateway, hexecuted]
      refine ⟨htools, ?_⟩
      have hfind : builtinTools.find? (·.name = name) = some tool := htools ▸ htool
      have hmem : tool ∈ builtinTools := List.mem_of_find?_eq_some hfind
      by_cases hneeds : tool.requiredCap &&& c ≠ 0
      · obtain ⟨hcap, helevated⟩ := requiredCap_eq_of_elevated hmem hc hneeds
        obtain ⟨hgrant, hafter⟩ := hauthorized.grant (by rwa [hcap])
        rw [hcap] at hgrant hafter
        have hleft : { g with jitGrants := after }.left c + 1 = g.left c :=
          left_of_used hgrant hafter
        have hneeded : needs c (.handled (g.handle agent caps request backend).response
            (some (name, input))) = true := by simpa [needs, hfind] using hneeds
        rw [if_pos hneeded, left_record]
        omega
      · have hle : { g with jitGrants := after }.left c ≤ g.left c := by
          by_cases helevated : tool.requiredCap &&& Cap.elevated = 0
          · rw [hauthorized.keep helevated]
          · exact left_of_and (hauthorized.grant helevated).2 c
        simpa [needs, hfind, hneeds] using hle

theorem executions_le (htools : g.tools = builtinTools) (hc : c ∈ Cap.elevatedCaps)
    (calls : List Call) :
    (machine.results g calls).countP (needs c) ≤ g.left c + calls.countP (includes c) := by
  induction calls generalizing g with
  | nil => simp [CallMachine.results]
  | cons call calls ih =>
    obtain ⟨htools', hstep⟩ := left_step htools hc call
    have hrest := ih htools'
    rw [CallMachine.results, List.countP_cons, List.countP_cons]
    omega

/-- In every run from the start, tools are executed and recorded as the requests and the grants
say, and no elevated capability is used more often than it was granted. -/
theorem toolCalls_within_grants (calls : List Call) :
    (∀ before agent caps request backend after,
        calls = before ++ .handle agent caps request backend :: after →
        Effect (machine.run .new before) agent caps request
          ((machine.run .new before).handle agent caps request backend)) ∧
      (∀ before cap after, calls = before ++ .grantJit cap :: after →
        ((machine.run .new before).grantJit cap).audit = (machine.run .new before).audit) ∧
      ∀ c ∈ Cap.elevatedCaps,
        (machine.results .new calls).countP (needs c) ≤ calls.countP (includes c) := by
  refine ⟨fun before agent caps request backend after _ => McpGateway.handle_effect _ _ _ _ _,
    fun before cap after _ => rfl, fun c hc => ?_⟩
  have hle := executions_le (g := .new) rfl hc calls
  have hleft : McpGateway.new.left c = 0 := by simp [McpGateway.left, McpGateway.new]
  omega

end EuroOS.Agent
