import Detection.Catalogue.Record

/-!
# The shipped catalogue

The mapping records and the indicator fields that come with the library, as the
files of a catalogue. Every platform has a directory with one record a file.
-/
namespace Detection.Shipped

open Text

/-- The text of a file with some lines. -/
def ofLines (lines : List String) : String :=
  String.join (lines.map (· ++ "\n"))

def splunkFiles : List (String × String) := [
  ("splunk/default.yml", ofLines [
    "platform: Splunk",
    "source: default",
    "field_mapping:",
    "  CommandLine: CommandLine",
    "  Image: Image",
    "  ParentImage: ParentImage",
    "  User: User",
    "  EventID: EventCode",
    "  ParentCommandLine: ParentCommandLine",
    "  ProcessId: ProcessId"]),
  ("splunk/windows_process_creation.yml", ofLines [
    "platform: Splunk",
    "source: windows_process_creation",
    "log_source:",
    "  source: [\"WinEventLog:Microsoft-Windows-Sysmon/Operational\", " ++
      "\"XmlWinEventLog:Microsoft-Windows-Sysmon/Operational\"]",
    "  index: [windows, sysmon]",
    "default_log_source:",
    "  source: \"XmlWinEventLog:Microsoft-Windows-Sysmon/Operational\"",
    "field_mapping:",
    "  CommandLine: CommandLine",
    "  Image: Image",
    "  ParentImage: ParentImage",
    "  User: User",
    "  EventID: EventCode",
    "  ParentCommandLine: ParentCommandLine",
    "  ProcessId: ProcessId"]),
  ("splunk/windows_security.yml", ofLines [
    "platform: Splunk",
    "source: windows_security",
    "log_source:",
    "  source: [\"WinEventLog:Security\", \"XmlWinEventLog:Security\"]",
    "  index: [windows]",
    "default_log_source:",
    "  source: \"WinEventLog:Security\"",
    "field_mapping:",
    "  EventID: EventCode",
    "  CommandLine: Process_Command_Line",
    "  Image: [NewProcessName, Process_Name]",
    "  User: [SubjectUserName, TargetUserName]",
    "  ParentImage: ParentProcessName"])]

def crowdStrikeFiles : List (String × String) := [
  ("crowdstrike/default.yml", ofLines [
    "platform: CrowdStrike",
    "source: default",
    "field_mapping:",
    "  CommandLine: CommandLine",
    "  Image: ImageFileName",
    "  ParentImage: ParentBaseFileName",
    "  User: UserName"]),
  ("crowdstrike/windows_process_creation.yml", ofLines [
    "platform: CrowdStrike",
    "source: windows_process_creation",
    "log_source:",
    "  event_simpleName: [ProcessRollup2, SyntheticProcessRollup2]",
    "default_log_source:",
    "  event_simpleName: ProcessRollup2",
    "field_mapping:",
    "  CommandLine: CommandLine",
    "  Image: ImageFileName",
    "  ParentImage: ParentBaseFileName",
    "  User: UserName",
    "  ProcessId: TargetProcessId"]),
  ("crowdstrike/windows_security.yml", ofLines [
    "platform: CrowdStrike",
    "source: windows_security",
    "log_source:",
    "  event_simpleName: [UserLogon, UserLogonFailed2]",
    "default_log_source:",
    "  event_simpleName: UserLogon",
    "field_mapping:",
    "  User: UserName",
    "  EventID: LogonType"])]

def qradarFiles : List (String × String) := [
  ("qradar/default.yml", ofLines [
    "platform: QRadar",
    "source: default",
    "field_mapping:",
    "  CommandLine: \"Process CommandLine\"",
    "  Image: Image",
    "  ParentImage: \"Parent Process Path\"",
    "  User: username",
    "  EventID: EventID"]),
  ("qradar/windows_process_creation.yml", ofLines [
    "platform: QRadar",
    "source: windows_process_creation",
    "log_source:",
    "  devicetype: [\"12\"]",
    "  category: [\"8110\"]",
    "default_log_source:",
    "  devicetype: \"12\"",
    "field_mapping:",
    "  CommandLine: \"Process CommandLine\"",
    "  Image: [Image, \"Process Path\"]",
    "  ParentImage: \"Parent Process Path\"",
    "  User: username",
    "  EventID: EventID",
    "  ParentCommandLine: \"Parent Process CommandLine\""]),
  ("qradar/windows_security.yml", ofLines [
    "platform: QRadar",
    "source: windows_security",
    "log_source:",
    "  devicetype: [\"12\"]",
    "  qid: [\"5000830\", \"5000831\"]",
    "default_log_source:",
    "  devicetype: \"12\"",
    "field_mapping:",
    "  EventID: EventID",
    "  User: username",
    "  Image: \"Process Name\"",
    "  CommandLine: Command"])]

def axonFiles : List (String × String) := [
  ("logrhythm_axon/default.yml", ofLines [
    "platform: LogRhythm Axon",
    "source: default",
    "default_log_source:",
    "  field: general_information.log_source.type_name",
    "field_mapping:",
    "  CommandLine: process.command_line",
    "  Image: process.path",
    "  ParentImage: process.parent_process.path",
    "  User: account.username",
    "  EventID: general_information.standard_message_id"]),
  ("logrhythm_axon/windows_process_creation.yml", ofLines [
    "platform: LogRhythm Axon",
    "source: windows_process_creation",
    "log_source:",
    "  product: [windows]",
    "  category: [process_creation]",
    "default_log_source:",
    "  field: general_information.log_source.type_name",
    "field_mapping:",
    "  CommandLine: process.command_line",
    "  Image: process.path",
    "  ParentImage: process.parent_process.path",
    "  User: account.username",
    "  EventID: general_information.standard_message_id"]),
  ("logrhythm_axon/windows_security.yml", ofLines [
    "platform: LogRhythm Axon",
    "source: windows_security",
    "log_source:",
    "  product: [windows]",
    "  service: [security]",
    "default_log_source:",
    "  field: general_information.log_source.type_name",
    "field_mapping:",
    "  EventID: general_information.standard_message_id",
    "  User: [account.username, action.target_username]"])]

def openSearchFiles : List (String × String) := [
  ("opensearch/default.yml", ofLines [
    "platform: OpenSearch",
    "source: default",
    "default_log_source:",
    "  index: \"logs-*\"",
    "field_mapping:",
    "  CommandLine: process.command_line",
    "  Image: process.executable",
    "  ParentImage: process.parent.executable",
    "  User: user.name",
    "  EventID: event.code"]),
  ("opensearch/windows_process_creation.yml", ofLines [
    "platform: OpenSearch",
    "source: windows_process_creation",
    "log_source:",
    "  index: [\"winlogbeat-*\", \"logs-windows.sysmon_operational-*\"]",
    "default_log_source:",
    "  index: \"winlogbeat-*\"",
    "field_mapping:",
    "  CommandLine: process.command_line",
    "  Image: process.executable",
    "  ParentImage: process.parent.executable",
    "  User: user.name",
    "  EventID: event.code",
    "  ParentCommandLine: process.parent.command_line",
    "  ProcessId: process.pid"]),
  ("opensearch/windows_security.yml", ofLines [
    "platform: OpenSearch",
    "source: windows_security",
    "log_source:",
    "  index: [\"winlogbeat-*\", \"logs-system.security-*\"]",
    "default_log_source:",
    "  index: \"logs-system.security-*\"",
    "field_mapping:",
    "  EventID: event.code",
    "  User: [user.name, winlog.event_data.TargetUserName]",
    "  Image: process.executable"])]

def cortexFiles : List (String × String) := [
  ("cortex_xql/default.yml", ofLines [
    "platform: Cortex XQL",
    "source: default",
    "default_log_source:",
    "  dataset: xdr_data",
    "field_mapping:",
    "  CommandLine: action_process_image_command_line",
    "  Image: action_process_image_path",
    "  ParentImage: actor_process_image_path",
    "  User: action_process_username",
    "  EventID: action_evtlog_event_id"]),
  ("cortex_xql/windows_process_creation.yml", ofLines [
    "platform: Cortex XQL",
    "source: windows_process_creation",
    "log_source:",
    "  preset: [xdr_process]",
    "default_log_source:",
    "  preset: xdr_process",
    "field_mapping:",
    "  CommandLine: action_process_image_command_line",
    "  Image: action_process_image_path",
    "  ParentImage: actor_process_image_path",
    "  User: action_process_username",
    "  ParentCommandLine: actor_process_command_line",
    "  ProcessId: action_process_os_pid"]),
  ("cortex_xql/windows_security.yml", ofLines [
    "platform: Cortex XQL",
    "source: windows_security",
    "log_source:",
    "  dataset: [xdr_data]",
    "default_log_source:",
    "  dataset: xdr_data",
    "field_mapping:",
    "  EventID: action_evtlog_event_id",
    "  User: actor_effective_username"])]

def huntersFiles : List (String × String) := [
  ("hunters/default.yml", ofLines [
    "platform: Hunters",
    "source: default",
    "default_log_source:",
    "  table: investigation.edr_events",
    "field_mapping:",
    "  CommandLine: target_process_commandline",
    "  Image: target_process_os_path",
    "  ParentImage: initiating_process_os_path",
    "  User: target_process_user_name",
    "  EventID: event_id"]),
  ("hunters/windows_process_creation.yml", ofLines [
    "platform: Hunters",
    "source: windows_process_creation",
    "log_source:",
    "  table: [investigation.edr_process_creation_events]",
    "default_log_source:",
    "  table: investigation.edr_process_creation_events",
    "field_mapping:",
    "  CommandLine: target_process_commandline",
    "  Image: target_process_os_path",
    "  ParentImage: initiating_process_os_path",
    "  User: target_process_user_name",
    "  ParentCommandLine: initiating_process_commandline"]),
  ("hunters/windows_security.yml", ofLines [
    "platform: Hunters",
    "source: windows_security",
    "log_source:",
    "  table: [raw.windows_security_events]",
    "default_log_source:",
    "  table: raw.windows_security_events",
    "field_mapping:",
    "  EventID: event_id",
    "  User: [subject_user_name, target_user_name]"])]

def sigmaFiles : List (String × String) := [
  ("sigma/default.yml", ofLines [
    "platform: Sigma",
    "source: default",
    "field_mapping:",
    "  CommandLine: CommandLine",
    "  Image: Image",
    "  ParentImage: ParentImage",
    "  User: User",
    "  EventID: EventID",
    "  ParentCommandLine: ParentCommandLine",
    "  ProcessId: ProcessId",
    "  TargetFilename: TargetFilename"]),
  ("sigma/windows_process_creation.yml", ofLines [
    "platform: Sigma",
    "source: windows_process_creation",
    "log_source:",
    "  product: [windows]",
    "  category: [process_creation]",
    "field_mapping:",
    "  CommandLine: CommandLine",
    "  Image: Image",
    "  ParentImage: ParentImage",
    "  User: User",
    "  ParentCommandLine: ParentCommandLine",
    "  ProcessId: ProcessId"]),
  ("sigma/windows_security.yml", ofLines [
    "platform: Sigma",
    "source: windows_security",
    "log_source:",
    "  product: [windows]",
    "  service: [security]",
    "field_mapping:",
    "  EventID: EventID",
    "  User: User",
    "  CommandLine: CommandLine",
    "  Image: Image"])]

def logScaleFiles : List (String × String) := [
  ("logscale/default.yml", ofLines [
    "platform: LogScale",
    "source: default",
    "field_mapping:",
    "  CommandLine: CommandLine",
    "  Image: ImageFileName",
    "  ParentImage: ParentBaseFileName",
    "  User: UserName"]),
  ("logscale/windows_process_creation.yml", ofLines [
    "platform: LogScale",
    "source: windows_process_creation",
    "log_source:",
    "  event_simpleName: [ProcessRollup2]",
    "default_log_source:",
    "  event_simpleName: ProcessRollup2",
    "field_mapping:",
    "  CommandLine: CommandLine",
    "  Image: ImageFileName",
    "  ParentImage: ParentBaseFileName",
    "  User: UserName",
    "  ProcessId: TargetProcessId"]),
  ("logscale/windows_security.yml", ofLines [
    "platform: LogScale",
    "source: windows_security",
    "log_source:",
    "  event_simpleName: [UserLogon]",
    "default_log_source:",
    "  event_simpleName: UserLogon",
    "field_mapping:",
    "  User: UserName",
    "  EventID: LogonType"])]

/-- The indicator fields of the platforms that search for indicators. -/
def indicatorFiles : List (String × String) := [
  ("cti/crowdstrike.yml", ofLines [
    "platform: CrowdStrike",
    "fields:",
    "  ip: [RemoteAddressIP4]",
    "  domain: [DomainName]",
    "  url: [HttpUrl]",
    "  email: [EmailAddress]",
    "  md5: [MD5HashData]",
    "  sha1: [SHA1HashData]",
    "  sha256: [SHA256HashData]"]),
  ("cti/qualys.yml", ofLines [
    "platform: Qualys EDR",
    "fields:",
    "  ip: [network.remote.address.ip]",
    "  domain: [network.remote.address.fqdn]",
    "  md5: [file.hash.md5]",
    "  sha256: [file.hash.sha256]"])]

def catalogue : FileSet where
  files :=
    splunkFiles ++ crowdStrikeFiles ++ qradarFiles ++ axonFiles ++ openSearchFiles ++ cortexFiles ++
      huntersFiles ++ sigmaFiles ++ logScaleFiles ++ indicatorFiles

end Detection.Shipped
