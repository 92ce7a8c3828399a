namespace BranchingTimeline.Prelude

def jumpKeyMark : String := "__JUMP_KEY__"

def participantMark : String := "__PARTICIPANT__"

def lines : List String :=
  [
    "// ---- timeline runtime: branching state and node hooks ----",
    "var tlJumpKey = __JUMP_KEY__;",
    "var tlJumpMemory = null;",
    "window.nextTrialId = null;",
    "window.skipRemaining = false;",
    "window.branchingActive = false;",
    "window.branchCustomParameters = null;",
    "",
    "// Top-level flag set, backed by the window globals.",
    "var tlRootScope = \x7b",
    "  get nextTrialId() \x7b return window.nextTrialId; \x7d,",
    "  set nextTrialId(v) \x7b window.nextTrialId = v; \x7d,",
    "  get skipRemaining() \x7b return window.skipRemaining; \x7d,",
    "  set skipRemaining(v) \x7b window.skipRemaining = v; \x7d,",
    "  get branchingActive() \x7b return window.branchingActive; \x7d,",
    "  set branchingActive(v) \x7b window.branchingActive = v; \x7d,",
    "  get customParameters() \x7b return window.branchCustomParameters; \x7d,",
    "  set customParameters(v) \x7b window.branchCustomParameters = v; \x7d,",
    "  targetExecuted: false,",
    "  shouldBranchOnFinish: false",
    "\x7d;",
    "",
    "function tlScope(id) \x7b",
    "  return \x7b",
    "    id: id,",
    "    nextTrialId: null,",
    "    skipRemaining: false,",
    "    targetExecuted: false,",
    "    branchingActive: false,",
    "    customParameters: null,",
    "    shouldBranchOnFinish: false",
    "  \x7d;",
    "\x7d",
    "",
    "// Durable channel first, in-memory slot second.",
    "function tlPendingJump() \x7b",
    "  var stored = null;",
    "  try \x7b stored = localStorage.getItem(tlJumpKey); \x7d catch (e) \x7b\x7d",
    "  return stored !== null ? stored : tlJumpMemory;",
    "\x7d",
    "",
    "function tlSetJump(id) \x7b",
    "  tlJumpMemory = String(id);",
    "  try \x7b localStorage.setItem(tlJumpKey, String(id)); \x7d catch (e) \x7b\x7d",
    "\x7d",
    "",
    "function tlClearJump() \x7b",
    "  tlJumpMemory = null;",
    "  try \x7b localStorage.removeItem(tlJumpKey); \x7d catch (e) \x7b\x7d",
    "\x7d",
    "",
    "function tlCompare(actual, op, expected) \x7b",
    "  var a = parseFloat(actual);",
    "  var b = parseFloat(expected);",
    "  if (!isNaN(a) && !isNaN(b)) \x7b",
    "    switch (op) \x7b",
    "      case \"==\": return a === b;",
    "      case \"!=\": return a !== b;",
    "      case \">\": return a > b;",
    "      case \"<\": return a < b;",
    "      case \">=\": return a >= b;",
    "      case \"<=\": return a <= b;",
    "      default: return false;",
    "    \x7d",
    "  \x7d",
    "  if (op === \"==\") return String(actual) === String(expected);",
    "  if (op === \"!=\") return String(actual) !== String(expected);",
    "  return false;",
    "\x7d",
    "",
    "function tlColumn(rule) \x7b",
    "  if (rule.column) return rule.column;",
    "  if (rule.componentIdx && rule.prop) return rule.componentIdx + \"_\" + rule.prop;",
    "  return rule.prop || \"\";",
    "\x7d",
    "",
    "// loopIds: null for any record, else the loop ids (a loop plus its nested loops) to accept.",
    "function tlLatest(trialId, loopIds) \x7b",
    "  var records = jsPsych.data.get().filter(\x7b trial_id: trialId \x7d).values();",
    "  for (var i = records.length - 1; i >= 0; i--) \x7b",
    "    if (loopIds === null || loopIds.indexOf(records[i].loop_id) !== -1) return records[i];",
    "  \x7d",
    "  return null;",
    "\x7d",
    "",
    "function tlBlank(id) \x7b",
    "  return id === undefined || id === null || String(id).trim() === \"\";",
    "\x7d",
    "",
    "function tlRuleHolds(rule, loopIds) \x7b",
    "  var column = tlColumn(rule);",
    "  if (tlBlank(rule.trialId) || column === \"\") return false;",
    "  var record = tlLatest(String(rule.trialId), loopIds);",
    "  if (record === null) return false;",
    "  return tlCompare(record[column], rule.op, rule.value);",
    "\x7d",
    "",
    "function tlConditionHolds(condition, loopIds) \x7b",
    "  var rules = condition.rules || [];",
    "  if (rules.length === 0) return false;",
    "  for (var i = 0; i < rules.length; i++) \x7b",
    "    if (!tlRuleHolds(rules[i], loopIds)) return false;",
    "  \x7d",
    "  return true;",
    "\x7d",
    "",
    "function tlAnyHolds(conditions, loopIds) \x7b",
    "  for (var i = 0; i < conditions.length; i++) \x7b",
    "    if (tlConditionHolds(conditions[i], loopIds)) return true;",
    "  \x7d",
    "  return false;",
    "\x7d",
    "",
    "function tlItemGuard(scope, id, members) \x7b",
    "  var jump = tlPendingJump();",
    "  if (jump !== null) \x7b",
    "    if (jump === id) \x7b",
    "      tlClearJump();",
    "      return true;",
    "    \x7d",
    "    return members.indexOf(jump) !== -1;",
    "  \x7d",
    "  if (scope.targetExecuted) return false;",
    "  if (!scope.skipRemaining) return true;",
    "  if (scope.nextTrialId === id) \x7b",
    "    scope.targetExecuted = true;",
    "    return true;",
    "  \x7d",
    "  return false;",
    "\x7d",
    "",
    "function tlResetPass(scope) \x7b",
    "  scope.nextTrialId = null;",
    "  scope.skipRemaining = false;",
    "  scope.targetExecuted = false;",
    "  scope.branchingActive = false;",
    "  scope.customParameters = null;",
    "\x7d",
    "",
    "function tlEnterLoop(scope) \x7b",
    "  tlResetPass(scope);",
    "  scope.shouldBranchOnFinish = false;",
    "\x7d",
    "",
    "function tlSelectBranch(branch) \x7b",
    "  if (branch.branches.length === 0) return null;",
    "  var fallback = \x7b target: branch.branches[0], params: null \x7d;",
    "  if (branch.branches.length === 1 || branch.conditions.length === 0) return fallback;",
    "  for (var i = 0; i < branch.conditions.length; i++) \x7b",
    "    var condition = branch.conditions[i];",
    "    if (!tlBlank(condition.nextTrialId) && tlConditionHolds(condition, null)) \x7b",
    "      return \x7b target: String(condition.nextTrialId), params: condition.customParameters || null \x7d;",
    "    \x7d",
    "  \x7d",
    "  return fallback;",
    "\x7d",
    "",
    "function tlResolveBranch(branch) \x7b",
    "  var choice = tlSelectBranch(branch);",
    "  if (choice === null) return;",
    "  var scope = branch.routes[choice.target];",
    "  if (scope) \x7b",
    "    scope.nextTrialId = choice.target;",
    "    scope.skipRemaining = true;",
    "    scope.targetExecuted = false;",
    "    scope.branchingActive = true;",
    "    scope.customParameters = choice.params;",
    "  \x7d else \x7b",
    "    tlSetJump(choice.target);",
    "  \x7d",
    "\x7d",
    "",
    "function tlCheckRepeats(repeats) \x7b",
    "  for (var i = 0; i < repeats.length; i++) \x7b",
    "    if (!tlBlank(repeats[i].jumpToTrialId) && tlConditionHolds(repeats[i], null)) \x7b",
    "      return String(repeats[i].jumpToTrialId);",
    "    \x7d",
    "  \x7d",
    "  return null;",
    "\x7d",
    "",
    "function tlFinish(plan) \x7b",
    "  var repeat = tlCheckRepeats(plan.repeats);",
    "  if (repeat !== null) \x7b",
    "    tlSetJump(repeat);",
    "    return;",
    "  \x7d",
    "  if (plan.branch) \x7b",
    "    tlResolveBranch(plan.branch);",
    "    return;",
    "  \x7d",
    "  if (plan.escalateTo) plan.escalateTo.shouldBranchOnFinish = true;",
    "\x7d",
    "",
    "function tlFinishLoop(state, plan, terminal) \x7b",
    "  if (tlPendingJump() !== null) return;",
    "  var repeat = tlCheckRepeats(plan.repeats);",
    "  if (repeat !== null) \x7b",
    "    tlSetJump(repeat);",
    "    return;",
    "  \x7d",
    "  if (plan.branch) \x7b",
    "    if (!state.shouldBranchOnFinish) return;",
    "    state.shouldBranchOnFinish = false;",
    "    tlResolveBranch(plan.branch);",
    "    return;",
    "  \x7d",
    "  if (plan.escalateTo) \x7b",
    "    plan.escalateTo.shouldBranchOnFinish = true;",
    "    return;",
    "  \x7d",
    "  if (terminal && tlRootScope.branchingActive) \x7b",
    "    jsPsych.endExperiment(\"Experiment finished.\");",
    "  \x7d",
    "\x7d",
    "",
    "function tlContinueLoop(id, members, conditions, dataScope) \x7b",
    "  var jump = tlPendingJump();",
    "  if (jump !== null) \x7b",
    "    if (jump === id) \x7b",
    "      tlClearJump();",
    "      return true;",
    "    \x7d",
    "    return members.indexOf(jump) !== -1;",
    "  \x7d",
    "  return tlAnyHolds(conditions, dataScope);",
    "\x7d",
    "",
    "function tlParticipantIndex() \x7b",
    "  var p = typeof __PARTICIPANT__ !== \"undefined\" ? Math.floor(Number(__PARTICIPANT__)) : 1;",
    "  if (isNaN(p) || p < 1) p = 1;",
    "  return p - 1;",
    "\x7d",
    "",
    "function tlMaterialize(plan) \x7b",
    "  if (!plan.orders && !plan.categories) return plan.rows.slice();",
    "  var index = tlParticipantIndex();",
    "  var indices = plan.rows.map(function (_, i) \x7b return i; \x7d);",
    "",
    "  if (plan.categories) \x7b",
    "    var distinct = [];",
    "    plan.categoryData.forEach(function (c) \x7b",
    "      var key = JSON.stringify(c);",
    "      if (distinct.indexOf(key) === -1) distinct.push(key);",
    "    \x7d);",
    "    if (distinct.length > 0) \x7b",
    "      var category = distinct[index % distinct.length];",
    "      indices = indices.filter(function (i) \x7b",
    "        return JSON.stringify(plan.categoryData[i]) === category;",
    "      \x7d);",
    "    \x7d",
    "  \x7d",
    "",
    "  if (plan.orders && plan.stimuliOrders.length > 0) \x7b",
    "    var order = plan.stimuliOrders[index % plan.stimuliOrders.length];",
    "    var filtered = indices;",
    "    indices = [];",
    "    order.forEach(function (position) \x7b",
    "      if (position >= 0 && position < filtered.length) indices.push(filtered[position]);",
    "    \x7d);",
    "  \x7d",
    "",
    "  return indices.map(function (i) \x7b return plan.rows[i]; \x7d);",
    "\x7d",
    "",
    "function tlInstrument(trial, meta) \x7b",
    "  var onStart = trial.on_start;",
    "  var onFinish = trial.on_finish;",
    "  trial.on_start = function (t) \x7b",
    "    for (var i = 0; i < meta.overrides.length; i++) \x7b",
    "      if (tlConditionHolds(meta.overrides[i], null)) \x7b",
    "        Object.assign(t, meta.overrides[i].paramsToOverride || \x7b\x7d);",
    "        break;",
    "      \x7d",
    "    \x7d",
    "    var scope = meta.scope;",
    "    if (scope.targetExecuted && scope.nextTrialId === meta.id && scope.customParameters) \x7b",
    "      Object.assign(t, scope.customParameters);",
    "    \x7d",
    "    if (onStart) onStart(t);",
    "  \x7d;",
    "  trial.on_finish = function (data) \x7b",
    "    data.trial_id = meta.id;",
    "    if (meta.loopId !== null) data.loop_id = meta.loopId;",
    "    if (onFinish) onFinish(data);",
    "    tlFinish(meta.finish);",
    "  \x7d;",
    "  return trial;",
    "\x7d",
    "// ---- end timeline runtime ----"
  ]

/-- The text with every occurrence of the mark replaced, from left to right; `skip` characters
belong to an occurrence already replaced. -/
def replaceFrom (mark replacement : List Char) : (skip : Nat) → List Char → List Char
  | _, [] => []
  | skip + 1, _ :: r => replaceFrom mark replacement skip r
  | 0, c :: r =>
    if mark.isPrefixOf (c :: r) then replacement ++ replaceFrom mark replacement (mark.length - 1) r
    else c :: replaceFrom mark replacement 0 r

def replace (mark replacement text : String) : String :=
  String.ofList (replaceFrom mark.toList replacement.toList 0 text.toList)

/-- The lines for a storage key, given as a literal, and a participant expression. The expression is
filled in last, so that it also replaces its mark inside the key. -/
def fill (jumpKey participant : String) : List String :=
  lines.map fun l => replace participantMark participant (replace jumpKeyMark jumpKey l)

end BranchingTimeline.Prelude
