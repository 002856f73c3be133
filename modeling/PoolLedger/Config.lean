import PoolLedger.Error
import PoolLedger.SocketAddress
import PoolLedger.Text.Integer

/-! Settings from environment variables. A number that cannot be read counts as
missing. The listening address is the first thing that can be wrong. -/

namespace PoolLedger

structure Config where
  initialHeight : Height
  limit : Height
  windowCount : Height
  rpcUrl : String
  storePath : String
  maxConnections : Index
  bucketWidth : Timestamp
  pollInterval : Height
  retryInterval : Height
  factory : String
  factoryV2 : String
  staking : String
  apiEnabled : Bool
  listenAddress : SocketAddress
  jsonLogs : Bool
deriving DecidableEq

abbrev Environment := String → Option String

namespace Config

def inMemoryPath : String := ":memory:"

def isInMemory (c : Config) : Bool := c.storePath = inMemoryPath

def number {lo hi : Int} (env : Environment) (name : String) (default : Ranged lo hi) :
    Ranged lo hi :=
  ((env name).bind Ranged.read?).getD default

def text (env : Environment) (name default : String) : String := (env name).getD default

def switch (env : Environment) (name : String) (default : Bool) : Bool :=
  match env name with
  | some "true" | some "TRUE" | some "1" => true
  | some "false" | some "FALSE" | some "0" => false
  | _ => default

def equalsIgnoringCase (s t : String) : Bool :=
  s.toList.map Char.toLower = t.toList.map Char.toLower

def ofEnvironment (env : Environment) : Except IndexerError Config :=
  match SocketAddress.read? (text env "LISTEN_ADDR" "0.0.0.0:2024") with
  | none => .error (.config "invalid LISTEN_ADDR: invalid socket address syntax")
  | some address =>
    let config : Config := {
      initialHeight := number env "INITIAL_SYNC_HEIGHT" 12388825
      limit := number env "LIMIT" 1000
      windowCount := number env "MAX_THREAD_LEVEL" 3
      rpcUrl := text env "RPC_URL" "https://rpc.orai.io"
      storePath := text env "DUCKDB_FILENAME" "oraidex-sync-data.db"
      maxConnections := number env "DATABASE_MAX_CONNECTIONS" 5
      bucketWidth := number env "BUCKET_SECS" 60
      pollInterval := number env "POLL_INTERVAL_MS" 5000
      retryInterval := number env "RETRY_INTERVAL_MS" 10000
      factory := text env "FACTORY_CONTRACT" "orai1hemdkz4xx9kukgrunxu3yw0nvpyxf34v82d2c8"
      factoryV2 := text env "FACTORY_V2_CONTRACT"
        "orai167r4ut7avvgpp3rlzksz6vw5spmykluzagvmj3ht845fjschwugqjsqhst"
      staking := text env "STAKING_CONTRACT" "orai19p43y0tqnr5qlhfwnxft2u5unph5yn60y7tuvu"
      apiEnabled := switch env "API_ENABLED" true
      listenAddress := address
      jsonLogs := (env "LOG_FORMAT").any (equalsIgnoringCase · "json") }
    if config.bucketWidth ≤ 0 then .error (.config "BUCKET_SECS must be positive")
    else if config.limit = 0 ∨ config.windowCount = 0 then
      .error (.config "LIMIT and MAX_THREAD_LEVEL must be positive")
    else .ok config

end Config

end PoolLedger
