import PoolLedger.Pair

/-! The curated pairs of the chain in canonical order. Their contracts are found
through the factories. -/

namespace PoolLedger.Curated

def oraiDenom : String := "orai"
def usdtContract : String := "orai12hzjxfh77wl572gdzct2fxv2arxcwh6gykc7qh"
def usdcContract : String := "orai15un8msx3n5zf9ahlxmfeqd2kwa5wm0nrpxer304m9nd5q6qq0g6sku5pdd"

def orai : AssetId := .native oraiDenom
def usdt : AssetId := .token usdtContract
def usdc : AssetId := .token usdcContract
def airi : AssetId := .token "orai10ldgzued6zjp0mkqwsv2mux3ml50l97c74x8sg"
def oraix : AssetId := .token "orai1lus0f0rhx8s03gdllx2n6vhkmf0536dv57wfge"
def scorai : AssetId := .token "orai1065qe48g7aemju045aeyprflytemx7kecxkf5m7u5h5mphd0qlcs47pclp"
def kwt : AssetId := .token "orai1nd4r053e3kgedgld2ymen8l9yrw8xpjyaal7j5"
def milky : AssetId := .token "orai1gzvndtzceqwfymu2kqhta2jn6gmzxvzqwdgvjw"
def scatom : AssetId := .token "orai19q4qak2g3cj2xc2y3060t0quzn3gfhzx08rjlrdd3vqxhjtat0cq668phq"
def atom : AssetId :=
  .native "ibc/A2E2EEC9057A4A1C2C0A6A4C78B0239118DF5F278830F50B4A6BDD7A66506B78"
def osmo : AssetId :=
  .native "ibc/9C4DCD21B48231D0BC2AC3D1B74A864746B37E4292694C93C617324250D002FC"

def pairs : List Pair := [
  .unlisted orai airi "ORAI" "AIRI",
  .unlisted oraix orai "ORAIX" "ORAI",
  .unlisted scorai orai "scORAI" "ORAI",
  .unlisted orai atom "ORAI" "ATOM",
  .unlisted orai usdt "ORAI" "USDT",
  .unlisted orai kwt "ORAI" "KWT",
  .unlisted orai osmo "ORAI" "OSMO",
  .unlisted milky usdt "MILKY" "USDT",
  .unlisted orai usdc "ORAI" "USDC",
  .unlisted scatom atom "scATOM" "ATOM"]

/-- The pool of this token is too thin to price it, so it is held at one dollar. -/
def fixedPrices : List (String × Float) := [(usdcContract, 1.0)]

end PoolLedger.Curated
